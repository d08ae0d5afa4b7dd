import Mathlib.Data.List.Nodup
import Zookeeper.Bytes

/-!
# Users and tokens of the master

`UserManager` keeps the users by name and, by token, the user that logged in and when
the token expires (`ofs/master/user`).  A user counts its references: one for a token,
one for an acquisition, and it is removed only while the count is not positive.

A token is the random seed written in base 26.  The seed moves on by a multiplication
with a multiple of 8, so it is zero from the eleventh token on, and zero is written as
the empty token (`generate_exhausted`).

An entry of `std::unordered_map` keeps its address.  Users stand here with theirs, and
an address is not used twice.
-/

namespace Ofs.Master

/-! ## Users -/

/-- `ofs::User`. -/
structure User where
  name : Bytes
  group : Bytes := []
  password : Bytes := []
  super : Bool := false
  count : Int32 := 0
deriving DecidableEq, Repr

namespace User

def check (user : User) (password : Bytes) : Bool := user.password == password

def addRef (user : User) : User := { user with count := user.count + 1 }

def decRef (user : User) : User := { user with count := user.count - 1 }

def isUsed (user : User) : Bool := decide (0 < user.count)

theorem toInt_addRef {user : User} (room : user.count ≠ Int32.maxValue) :
    user.addRef.count.toInt = user.count.toInt + 1 := by
  have hne : user.count.toInt ≠ 2 ^ 31 - 1 := fun h =>
    room (Int32.toInt_inj.1 (h.trans Int32.toInt_maxValue.symm))
  have hlt := user.count.toInt_lt
  have hle := user.count.le_toInt
  rw [addRef, Int32.toInt_add, Int32.toInt_one]
  exact Int.bmod_eq_of_le (by omega) (by omega)

theorem toInt_decRef {user : User} (used : 0 < user.count.toInt) :
    user.decRef.count.toInt = user.count.toInt - 1 := by
  have hlt := user.count.toInt_lt
  rw [decRef, Int32.toInt_sub, Int32.toInt_one]
  exact Int.bmod_eq_of_le (by omega) (by omega)

theorem isUsed_iff {user : User} : user.isUsed = true ↔ 0 < user.count.toInt := by
  rw [isUsed, decide_eq_true_iff, Int32.lt_iff_toInt_lt, Int32.toInt_zero]

end User

/-- `root`, the name and the group of the user that is there first. -/
def rootName : Bytes := [114, 111, 111, 116]

/-! ## The tables -/

/-- An address of a user, a `User *`. -/
abbrev UserRef := Nat

abbrev Token := List Char

/-- `UserManager::Auth`. -/
structure Auth where
  user : UserRef
  expire : Int64
deriving DecidableEq, Repr

/-- `UserManager`, with the static `seed` of `Generate`. -/
structure UserManager where
  users : List (UserRef × User) := []
  auths : List (Token × Auth) := []
  seed : UInt32 := 11231234123
  /-- How long a token is good for. -/
  expire : Int64 := 0
  /-- The address of the next user. -/
  fresh : UserRef := 0
deriving DecidableEq, Repr

/-! ## Tokens -/

/-- The loop of `Generate`, with its `count`. -/
def generateLoop : Nat → UInt32 → Token
  | 0, _ => []
  | count + 1, key =>
      if 0 < key then
        Char.ofNat ('a'.toNat + (key % 26).toNat) :: generateLoop count (key / 26)
      else []

/-- `Generate` moves the seed on first. -/
def nextSeed (seed : UInt32) : UInt32 := seed * 12978312

/-- `UserManager::Generate`, at the seed it has moved to. -/
def generate (seed : UInt32) : Token := generateLoop 32 seed

/-- The seed after a number of tokens. -/
def seedAfter : Nat → UInt32
  | 0 => 11231234123
  | n + 1 => nextSeed (seedAfter n)

/-- The `i`-th token, counted from zero. -/
def tokenAt (i : Nat) : Token := generate (seedAfter (i + 1))

theorem tokens_distinct : ((List.range 10).map tokenAt).Nodup := by decide +kernel

theorem tokens_written : ∀ i < 10, tokenAt i ≠ [] := by decide +kernel

theorem tokenAt_inj {i j : Nat} (hi : i < 10) (hj : j < 10) (h : tokenAt i = tokenAt j) :
    i = j :=
  List.inj_on_of_nodup_map tokens_distinct (List.mem_range.2 hi) (List.mem_range.2 hj) h

theorem seedAfter_exhausted (n : Nat) : seedAfter (n + 11) = 0 := by
  induction n with
  | zero => decide +kernel
  | succ n ih =>
      show nextSeed (seedAfter (n + 11)) = 0
      rw [ih]
      decide

/-- From the eleventh on, the tokens are empty. -/
theorem generate_exhausted (n : Nat) : tokenAt (n + 10) = [] := by
  show generate (seedAfter (n + 11)) = []
  rw [seedAfter_exhausted]
  decide

/-! ## Operations -/

namespace UserManager

/-- `_users.find`. -/
def find (m : UserManager) (name : Bytes) : Option (UserRef × User) :=
  m.users.find? fun p => p.2.name == name

/-- A user changed in place. -/
def modify (m : UserManager) (u : UserRef) (f : User → User) : UserManager :=
  { m with users := m.users.map fun p => if p.1 = u then (p.1, f p.2) else p }

/-- The user that logs in with a name and a password. -/
def checked (m : UserManager) (name password : Bytes) : Option (UserRef × User) :=
  (m.find name).filter fun p => p.2.check password

/-- `UserManager::Login` at a clock reading, with the token it returns. -/
def login (m : UserManager) (name password : Bytes) (tick : Int64) : UserManager × Token :=
  match m.checked name password with
  | some (u, _) =>
      let m := m.modify u User.addRef
      let seed := nextSeed m.seed
      let token := generate seed
      ({ m with seed := seed,
                auths := (token, ⟨u, tick + m.expire⟩) :: m.auths.filter fun e => e.1 ≠ token },
        token)
  | none => (m, [])

/-- `UserManager::Add`. -/
def add (m : UserManager) (name group password : Bytes) : UserManager × Bool :=
  match m.find name with
  | some _ => (m, false)
  | none =>
      ({ m with users := (m.fresh, { name := name, group := group, password := password }) ::
                  m.users,
                fresh := m.fresh + 1 }, true)

/-- `UserManager::Remove`. -/
def remove (m : UserManager) (name : Bytes) : UserManager × Bool :=
  match m.find name with
  | some p =>
      if p.2.isUsed then (m, false) else ({ m with users := m.users.filter (· ≠ p) }, true)
  | none => (m, false)

/-- `UserManager::Acquire`. -/
def acquire (m : UserManager) (token : Token) : UserManager × Option UserRef :=
  match m.auths.lookup token with
  | some auth => (m.modify auth.user User.addRef, some auth.user)
  | none => (m, none)

/-- `UserManager::Release`. -/
def release (m : UserManager) (user : UserRef) : UserManager := m.modify user User.decRef

/-- An expired entry dropped by `ClearExpire`. -/
def drop (m : UserManager) (e : Token × Auth) : UserManager :=
  { m.modify e.2.user User.decRef with auths := m.auths.erase e }

/-- The loop of `ClearExpire`, over the entries still ahead. -/
def clearLoop (tick : Int64) : UserManager → List (Token × Auth) → UserManager
  | m, [] => m
  | m, e :: rest => clearLoop tick (if e.2.expire < tick then m.drop e else m) rest

/-- One pass of `UserManager::ClearExpire` at a clock reading. -/
def clearExpire (m : UserManager) (tick : Int64) : UserManager := clearLoop tick m m.auths

/-! ## What they do to the tables -/

variable {m : UserManager} {name password : Bytes}

theorem mem_of_find {p : UserRef × User} (h : m.find name = some p) : p ∈ m.users :=
  List.mem_of_find?_eq_some h

theorem mem_of_checked {p : UserRef × User} (h : m.checked name password = some p) :
    p ∈ m.users :=
  mem_of_find (Option.eq_some_of_filter_eq_some h)

/-- An entry under a token that is in no other entry is added, with its reference. -/
theorem login_checked {p : UserRef × User} (h : m.checked name password = some p)
    (tick : Int64) (absent : ∀ e ∈ m.auths, e.1 ≠ generate (nextSeed m.seed)) :
    m.login name password tick =
      ({ m.modify p.1 User.addRef with
          seed := nextSeed m.seed,
          auths := (generate (nextSeed m.seed), ⟨p.1, tick + m.expire⟩) :: m.auths },
        generate (nextSeed m.seed)) := by
  have hkept : m.auths.filter (fun e => e.1 ≠ generate (nextSeed m.seed)) = m.auths :=
    List.filter_eq_self.2 fun e he => decide_eq_true (absent e he)
  simp only [login, h]
  rw [show (m.modify p.1 User.addRef).auths = m.auths from rfl,
    show (m.modify p.1 User.addRef).seed = m.seed from rfl, hkept]
  rfl

theorem login_unchecked (h : m.checked name password = none) (tick : Int64) :
    m.login name password tick = (m, []) := by
  simp only [login, h]

theorem remove_cases (m : UserManager) (name : Bytes) :
    (m.remove name).1 = m ∨ ∃ p ∈ m.users, p.2.isUsed = false ∧
      (m.remove name).1 = { m with users := m.users.filter (· ≠ p) } := by
  rw [remove]
  cases hfind : m.find name with
  | none => exact .inl rfl
  | some p =>
      cases hused : p.2.isUsed with
      | true => exact .inl (by simp only [hused, if_true])
      | false => exact .inr ⟨p, mem_of_find hfind, hused, by simp only [hused]; rfl⟩

theorem add_cases (m : UserManager) (name group password : Bytes) :
    (m.add name group password).1 = m ∨
      (m.add name group password).1 = { m with
        users := (m.fresh, { name := name, group := group, password := password }) :: m.users,
        fresh := m.fresh + 1 } := by
  rw [add]
  cases m.find name with
  | none => exact .inr rfl
  | some p => exact .inl rfl

end UserManager

end Ofs.Master

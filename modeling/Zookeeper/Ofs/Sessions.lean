import Mathlib.Data.List.Count
import Zookeeper.KeyedList
import Zookeeper.Ofs.UserManager
import Zookeeper.Transition

/-!
# Sessions of the master

A run of `Login`, `Acquire`, `Release`, `Add`, `Remove` and `ClearExpire` in any order
and at any clock readings.  `Acquire` answers from the table of tokens and reads no
clock: a token is good for as long as its entry stands, and the entry stands until
`ClearExpire` comes by after its time.  A login puts its entry in the place of one under
the same token and leaves the reference that one holds.

`sessions_kept` says that an `Acquire` answers by the logins and their times, and that
users count their references, where no more than ten logins pass, no count is at its
limit, and a token is asked for while the clock of the last `ClearExpire` agrees with
the present one on it.
-/

namespace Ofs.Master

/-! ## References and counts -/

/-- Every user counts what refers to it, and every reference has its user. -/
structure RefsCounted (users : List (UserRef × User)) (refs : List UserRef) : Prop where
  count : ∀ p ∈ users, p.2.count.toInt = refs.count p.1
  user : ∀ u ∈ refs, u ∈ users.map Prod.fst

namespace RefsCounted

variable {users : List (UserRef × User)} {refs refs' : List UserRef} {u : UserRef}

theorem perm (h : RefsCounted users refs) (same : refs.Perm refs') : RefsCounted users refs' where
  count p hp := by rw [h.count p hp, same.count_eq]
  user v hv := h.user v (same.mem_iff.2 hv)

/-- A user changed in place keeps its address. -/
theorem refs_modify (m : UserManager) (u : UserRef) (f : User → User) :
    (m.modify u f).users.map Prod.fst = m.users.map Prod.fst := by
  simp only [UserManager.modify, List.map_map]
  refine List.map_congr_left fun p _ => ?_
  simp only [Function.comp_apply]
  split <;> rfl

/-- A user after a change in place is one from before, changed if it is the one. -/
theorem mem_modify {m : UserManager} {f : User → User} {p : UserRef × User}
    (hp : p ∈ (m.modify u f).users) :
    ∃ q ∈ m.users, q.1 = p.1 ∧ p.2 = if q.1 = u then f q.2 else q.2 := by
  simp only [UserManager.modify, List.mem_map] at hp
  obtain ⟨q, hq, rfl⟩ := hp
  refine ⟨q, hq, ?_⟩
  split <;> exact ⟨rfl, rfl⟩

theorem addRef {m : UserManager} (h : RefsCounted m.users refs) (stands : u ∈ m.users.map Prod.fst)
    (room : ∀ p ∈ m.users, p.1 = u → p.2.count ≠ Int32.maxValue) :
    RefsCounted (m.modify u User.addRef).users (u :: refs) where
  count p hp := by
    obtain ⟨q, hq, href, hval⟩ := mem_modify hp
    have hcount := h.count q hq
    rw [hval, ← href]
    split
    next same =>
      rw [User.toInt_addRef (room q hq same), hcount, same, List.count_cons_self]
      rfl
    next other => rw [hcount, List.count_cons_of_ne (Ne.symm other)]
  user v hv := by
    rw [refs_modify]
    rcases List.mem_cons.1 hv with rfl | hrest
    · exact stands
    · exact h.user v hrest

theorem decRef {m : UserManager} (h : RefsCounted m.users (u :: refs)) :
    RefsCounted (m.modify u User.decRef).users refs where
  count p hp := by
    obtain ⟨q, hq, href, hval⟩ := mem_modify hp
    have hcount := h.count q hq
    rw [hval, ← href]
    split
    next same =>
      rw [same, List.count_cons_self] at hcount
      have hused : 0 < q.2.count.toInt := by omega
      rw [User.toInt_decRef hused, same]
      omega
    next other => rw [hcount, List.count_cons_of_ne (Ne.symm other)]
  user v hv := by
    rw [refs_modify]
    exact h.user v (List.mem_cons_of_mem _ hv)

/-- Nothing refers to an address that is not in use. -/
theorem add {fresh : UserRef} {user : User} (h : RefsCounted users refs)
    (unused : ∀ p ∈ users, p.1 < fresh) (zero : user.count = 0) :
    RefsCounted ((fresh, user) :: users) refs where
  count p hp := by
    rcases List.mem_cons.1 hp with rfl | hold
    · have hnone : fresh ∉ refs := by
        intro hmem
        obtain ⟨q, hq, heq⟩ := List.mem_map.1 (h.user fresh hmem)
        exact absurd heq (Nat.ne_of_lt (unused q hq))
      rw [zero, List.count_eq_zero_of_not_mem hnone]
      rfl
    · exact h.count p hold
  user v hv := List.mem_cons_of_mem _ (h.user v hv)

/-- Nothing refers to a user that is not used. -/
theorem remove {p : UserRef × User} (h : RefsCounted users refs) (mem : p ∈ users)
    (unused : p.2.isUsed = false) : RefsCounted (users.filter (· ≠ p)) refs where
  count q hq := h.count q (List.mem_of_mem_filter hq)
  user v hv := by
    obtain ⟨q, hq, rfl⟩ := List.mem_map.1 (h.user v hv)
    refine List.mem_map.2 ⟨q, List.mem_filter.2 ⟨hq, ?_⟩, rfl⟩
    rw [decide_eq_true_iff]
    rintro rfl
    have hused : q.2.isUsed = true := by
      rw [User.isUsed_iff, h.count q hq]
      exact_mod_cast List.count_pos_iff.2 hv
    rw [unused] at hused
    cases hused

end RefsCounted

/-! ## A pass of `ClearExpire` -/

namespace UserManager

/-- The users the tokens refer to. -/
def tokenRefs (m : UserManager) : List UserRef := m.auths.map fun e => e.2.user

variable {m : UserManager} {acquired : List UserRef} {tick : Int64}

theorem drop_counted {e : Token × Auth} (mem : e ∈ m.auths)
    (h : RefsCounted m.users (m.tokenRefs ++ acquired)) :
    RefsCounted (m.drop e).users ((m.drop e).tokenRefs ++ acquired) := by
  have hperm : (m.tokenRefs ++ acquired).Perm
      (e.2.user :: ((m.drop e).tokenRefs ++ acquired)) := by
    have hmap := (List.perm_cons_erase mem).map fun e : Token × Auth => e.2.user
    exact hmap.append_right acquired
  exact (h.perm hperm).decRef

/-- The loop drops the expired entries ahead, each with its reference. -/
theorem clearLoop_spec (tick : Int64) {kept rest : List (Token × Auth)}
    (split : m.auths = kept ++ rest) (distinct : m.auths.Nodup)
    (h : RefsCounted m.users (m.tokenRefs ++ acquired)) :
    (clearLoop tick m rest).auths = kept ++ rest.filter (fun e => !decide (e.2.expire < tick)) ∧
    RefsCounted (clearLoop tick m rest).users ((clearLoop tick m rest).tokenRefs ++ acquired) ∧
    (clearLoop tick m rest).users.map Prod.fst = m.users.map Prod.fst ∧
    (clearLoop tick m rest).seed = m.seed ∧ (clearLoop tick m rest).fresh = m.fresh := by
  induction rest generalizing m kept with
  | nil => exact ⟨split, h, rfl, rfl, rfl⟩
  | cons e rest ih =>
      rw [clearLoop]
      have hmem : e ∈ m.auths := by rw [split]; simp
      by_cases expired : e.2.expire < tick
      · have hnot : e ∉ kept := fun hkept =>
          (List.nodup_append.1 (split ▸ distinct)).2.2 e hkept e List.mem_cons_self rfl
        have herase : (m.drop e).auths = kept ++ rest := by
          show m.auths.erase e = kept ++ rest
          rw [split, List.erase_append_right _ hnot, List.erase_cons_head]
        obtain ⟨hauths, hcounted, hrefs, hseed, hfresh⟩ :=
          ih herase (distinct.erase e) (drop_counted hmem h)
        rw [if_pos expired, List.filter_cons_of_neg (by simp [expired])]
        exact ⟨hauths, hcounted, hrefs.trans (RefsCounted.refs_modify m _ _), hseed, hfresh⟩
      · have hsplit : m.auths = (kept ++ [e]) ++ rest := by rw [split]; simp
        obtain ⟨hauths, hcounted, hrefs, hseed, hfresh⟩ := ih hsplit distinct h
        rw [if_neg expired, List.filter_cons_of_pos (by simp [expired])]
        exact ⟨by rw [hauths]; simp, hcounted, hrefs, hseed, hfresh⟩

end UserManager

/-! ## Sessions -/

/-- A login that returned a token, and the clock readings of `ClearExpire` since. -/
structure Issued where
  token : Token
  user : UserRef
  expire : Int64
  sweeps : List Int64 := []
deriving DecidableEq, Repr

namespace Issued

/-- `ClearExpire` has not come by after its time. -/
def standing (e : Issued) : Bool := e.sweeps.all fun tick => decide (tick ≤ e.expire)

/-- Its entry in the table. -/
def entry (e : Issued) : Token × Auth := (e.token, ⟨e.user, e.expire⟩)

def swept (tick : Int64) (e : Issued) : Issued := { e with sweeps := tick :: e.sweeps }

@[simp] theorem token_swept (tick : Int64) (e : Issued) : (e.swept tick).token = e.token := rfl

@[simp] theorem entry_swept (tick : Int64) (e : Issued) : (e.swept tick).entry = e.entry := rfl

theorem standing_iff {e : Issued} : e.standing = true ↔ ∀ tick ∈ e.sweeps, tick ≤ e.expire := by
  simp only [standing, List.all_eq_true, decide_eq_true_iff]

instance (e : Issued) : Decidable (∀ tick ∈ e.sweeps, tick ≤ e.expire) :=
  decidable_of_iff _ standing_iff

theorem standing_swept (tick : Int64) (e : Issued) :
    (e.swept tick).standing = (!decide (e.expire < tick) && e.standing) := by
  rw [Bool.eq_iff_iff, standing_iff, Bool.and_eq_true, standing_iff]
  simp [swept, Int64.not_lt]

end Issued

/-- An answered `Acquire`, at a clock reading, and the logins before it. -/
structure Answer where
  token : Token
  now : Int64
  result : Option UserRef
  issued : List Issued
deriving DecidableEq, Repr

/-- The manager, the logins that returned a token, the users acquired and not released
yet, and the answers given.  The latest come first. -/
structure Sessions where
  manager : UserManager
  issued : List Issued := []
  acquired : List UserRef := []
  answers : List Answer := []
deriving DecidableEq, Repr

/-- A call of the manager, with the clock reading it is made at. -/
inductive SessionAct where
  | login (name password : Bytes) (tick : Int64)
  | add (name group password : Bytes)
  | remove (name : Bytes)
  | acquire (token : Token) (now : Int64)
  | release (user : UserRef)
  | clearExpire (tick : Int64)

namespace Sessions

/-- What a login leaves behind where it returned a token. -/
def loggedIn (s : Sessions) (user : UserRef) (token : Token) (tick : Int64) : List Issued :=
  if token = [] then s.issued
  else { token := token, user := user, expire := tick + s.manager.expire } :: s.issued

/-- A call.  Only what was acquired is released. -/
def step (s : Sessions) : SessionAct → Option Sessions
  | .login name password tick =>
      let r := s.manager.login name password tick
      match s.manager.checked name password with
      | some (u, _) => some { s with manager := r.1, issued := s.loggedIn u r.2 tick }
      | none => some { s with manager := r.1 }
  | .add name group password => some { s with manager := (s.manager.add name group password).1 }
  | .remove name => some { s with manager := (s.manager.remove name).1 }
  | .acquire token now =>
      let r := s.manager.acquire token
      some { s with manager := r.1, acquired := r.2.toList ++ s.acquired,
                    answers := ⟨token, now, r.2, s.issued⟩ :: s.answers }
  | .release user =>
      if user ∈ s.acquired then
        some { s with manager := s.manager.release user, acquired := s.acquired.erase user }
      else none
  | .clearExpire tick =>
      some { s with
        manager := s.manager.clearExpire tick
        issued := s.issued.map (Issued.swept tick) }

/-- The manager as it starts, with the users it has read. -/
structure Init (s : Sessions) : Prop where
  users : ∀ p ∈ s.manager.users, p.1 < s.manager.fresh ∧ p.2.count = 0
  names : (s.manager.users.map fun p => p.2.name).Nodup
  auths : s.manager.auths = []
  seed : s.manager.seed = seedAfter 0
  issued : s.issued = []
  acquired : s.acquired = []
  answers : s.answers = []

end Sessions

/-- The runs of the manager. -/
def sessionSystem : Transition.System Sessions SessionAct :=
  Transition.ofStep Sessions.Init Sessions.step

/-- The logins, and no others, are answered until their time has passed.  A user counts
its entries and its acquisitions, and the user of an entry is there. -/
structure SessionsKept (s : Sessions) : Prop where
  answered : ∀ a ∈ s.answers, ∀ u, a.result = some u ↔
    ∃ e ∈ a.issued, e.token = a.token ∧ e.user = u ∧ a.now ≤ e.expire
  counted : ∀ p ∈ s.manager.users, p.2.count.toInt =
    s.manager.auths.countP (fun e => e.2.user == p.1) + s.acquired.count p.1
  there : ∀ e ∈ s.manager.auths, ∃ p ∈ s.manager.users, p.1 = e.2.user

/-- Fewer than ten logins have passed before one.  A token is asked for while the last
`ClearExpire` agrees with the clock on it.  No count is at its limit where it is raised. -/
def InTime (s : Sessions) : SessionAct → Prop
  | .login name password _ => ∀ p ∈ s.manager.checked name password,
      s.issued.length < 10 ∧ ∀ q ∈ s.manager.users, q.1 = p.1 → q.2.count ≠ Int32.maxValue
  | .acquire token now =>
      (∀ e ∈ s.issued, e.token = token → (now ≤ e.expire ↔ ∀ tick ∈ e.sweeps, tick ≤ e.expire)) ∧
      ∀ auth ∈ s.manager.auths.lookup token,
        ∀ q ∈ s.manager.users, q.1 = auth.user → q.2.count ≠ Int32.maxValue
  | _ => True

instance (s : Sessions) : ∀ a, Decidable (InTime s a)
  | .login _ _ _ => inferInstanceAs (Decidable (∀ p ∈ _, _))
  | .acquire _ _ => inferInstanceAs (Decidable (_ ∧ _))
  | .add _ _ _ => inferInstanceAs (Decidable True)
  | .remove _ => inferInstanceAs (Decidable True)
  | .release _ => inferInstanceAs (Decidable True)
  | .clearExpire _ => inferInstanceAs (Decidable True)

/-! ## The invariant -/

namespace Sessions

/-- The users that tokens and acquisitions refer to. -/
def refs (s : Sessions) : List UserRef := s.manager.tokenRefs ++ s.acquired

/-- The tokens issued are the first ones, and the table holds those that stand. -/
structure Inv (s : Sessions) : Prop where
  few : s.issued.length ≤ 10
  seed : s.manager.seed = seedAfter s.issued.length
  tokens : ∀ e ∈ s.issued, ∃ i < s.issued.length, e.token = tokenAt i
  distinct : (s.issued.map Issued.token).Nodup
  auths : s.manager.auths = (s.issued.filter Issued.standing).map Issued.entry
  fresh : ∀ p ∈ s.manager.users, p.1 < s.manager.fresh
  counted : RefsCounted s.manager.users s.refs
  answered : ∀ a ∈ s.answers, ∀ u, a.result = some u ↔
    ∃ e ∈ a.issued, e.token = a.token ∧ e.user = u ∧ a.now ≤ e.expire

namespace Inv

variable {s s' : Sessions}

theorem of_init (h : s.Init) : s.Inv where
  few := by rw [h.issued]; exact Nat.zero_le _
  seed := by rw [h.issued]; exact h.seed
  tokens e he := by rw [h.issued] at he; cases he
  distinct := by rw [h.issued]; exact List.nodup_nil
  auths := by rw [h.issued, h.auths]; rfl
  fresh p hp := (h.users p hp).1
  counted := by
    rw [refs, UserManager.tokenRefs, h.auths, h.acquired]
    exact ⟨fun p hp => by rw [(h.users p hp).2]; rfl, fun u hu => by cases hu⟩
  answered a ha := by rw [h.answers] at ha; cases ha

/-- An entry of the table is that of a login that stands. -/
theorem mem_auths (hs : s.Inv) {token : Token} {auth : Auth} :
    (token, auth) ∈ s.manager.auths ↔ ∃ e ∈ s.issued, e.token = token ∧ e.user = auth.user ∧
      e.expire = auth.expire ∧ ∀ tick ∈ e.sweeps, tick ≤ e.expire := by
  rw [hs.auths]
  constructor
  · intro hmem
    obtain ⟨e, he, hentry⟩ := List.mem_map.1 hmem
    obtain ⟨hissued, hstanding⟩ := List.mem_filter.1 he
    cases hentry
    exact ⟨e, hissued, rfl, rfl, rfl, Issued.standing_iff.1 hstanding⟩
  · rintro ⟨e, he, rfl, huser, hexpire, hstanding⟩
    refine List.mem_map.2 ⟨e, List.mem_filter.2 ⟨he, Issued.standing_iff.2 hstanding⟩, ?_⟩
    rw [Issued.entry, huser, hexpire]

theorem auths_distinct (hs : s.Inv) : (s.manager.auths.map Prod.fst).Nodup := by
  have htokens : s.manager.auths.map Prod.fst =
      (s.issued.filter Issued.standing).map Issued.token := by
    rw [hs.auths, List.map_map]
    rfl
  rw [htokens]
  exact hs.distinct.sublist (List.filter_sublist.map _)

/-- The next token is one that was not issued. -/
theorem next_unissued (hs : s.Inv) (room : s.issued.length < 10) :
    ∀ e ∈ s.issued, e.token ≠ tokenAt s.issued.length := by
  intro e he heq
  obtain ⟨i, hi, htoken⟩ := hs.tokens e he
  exact absurd (tokenAt_inj (Nat.lt_trans hi room) room (htoken.symm.trans heq)) (Nat.ne_of_lt hi)

theorem next_token (hs : s.Inv) :
    generate (nextSeed s.manager.seed) = tokenAt s.issued.length := by
  rw [hs.seed]
  rfl

/-- A login that passes. -/
theorem login (hs : s.Inv) {name password : Bytes} {p : UserRef × User} (tick : Int64)
    (pass : s.manager.checked name password = some p) (few : s.issued.length < 10)
    (room : ∀ q ∈ s.manager.users, q.1 = p.1 → q.2.count ≠ Int32.maxValue) :
    Inv { s with manager := (s.manager.login name password tick).1,
                 issued := s.loggedIn p.1 (s.manager.login name password tick).2 tick } := by
  have hnew := hs.next_unissued few
  have habsent : ∀ e ∈ s.manager.auths, e.1 ≠ generate (nextSeed s.manager.seed) := by
    intro e he
    obtain ⟨i, hi, htoken, -⟩ := hs.mem_auths.1 he
    rw [hs.next_token, ← htoken]
    exact hnew i hi
  have hwritten := tokens_written _ few
  rw [UserManager.login_checked pass tick habsent, hs.next_token, loggedIn, if_neg hwritten]
  refine ⟨few, ?_, ?_, ?_, ?_, ?_, ?_, hs.answered⟩
  · show nextSeed s.manager.seed = seedAfter (s.issued.length + 1)
    rw [hs.seed]
    rfl
  · intro e he
    rcases List.mem_cons.1 he with rfl | hold
    · exact ⟨_, Nat.lt_succ_self _, rfl⟩
    · obtain ⟨i, hi, htoken⟩ := hs.tokens e hold
      exact ⟨i, Nat.lt_succ_of_lt hi, htoken⟩
  · rw [List.map_cons, List.nodup_cons]
    refine ⟨fun hmem => ?_, hs.distinct⟩
    obtain ⟨e, he, htoken⟩ := List.mem_map.1 hmem
    exact hnew e he htoken
  · show _ :: s.manager.auths = _
    rw [hs.auths, List.filter_cons_of_pos (by rfl), List.map_cons]
    rfl
  · intro q hq
    obtain ⟨q', hq', href, -⟩ := RefsCounted.mem_modify hq
    exact href ▸ hs.fresh q' hq'
  · exact hs.counted.addRef
      (List.mem_map.2 ⟨p, UserManager.mem_of_checked pass, rfl⟩) room

/-- An `Acquire` answered while the table agrees with the clock. -/
theorem acquire (hs : s.Inv) (token : Token) (now : Int64)
    (timely : ∀ e ∈ s.issued, e.token = token →
      (now ≤ e.expire ↔ ∀ tick ∈ e.sweeps, tick ≤ e.expire))
    (room : ∀ auth ∈ s.manager.auths.lookup token,
      ∀ q ∈ s.manager.users, q.1 = auth.user → q.2.count ≠ Int32.maxValue) :
    Inv { s with manager := (s.manager.acquire token).1,
                 acquired := (s.manager.acquire token).2.toList ++ s.acquired,
                 answers := ⟨token, now, (s.manager.acquire token).2, s.issued⟩ :: s.answers } := by
  have hanswer : ∀ u, (s.manager.acquire token).2 = some u ↔
      ∃ e ∈ s.issued, e.token = token ∧ e.user = u ∧ now ≤ e.expire := by
    intro u
    have hlookup : (s.manager.acquire token).2 = (s.manager.auths.lookup token).map Auth.user := by
      rw [UserManager.acquire]
      cases s.manager.auths.lookup token <;> rfl
    rw [hlookup, Option.map_eq_some_iff]
    constructor
    · rintro ⟨auth, hauth, rfl⟩
      obtain ⟨e, he, htoken, huser, -, hstanding⟩ :=
        hs.mem_auths.1 ((KeyedList.lookup_iff hs.auths_distinct).1 hauth)
      exact ⟨e, he, htoken, huser, (timely e he htoken).2 hstanding⟩
    · rintro ⟨e, he, htoken, huser, hnow⟩
      refine ⟨⟨e.user, e.expire⟩, (KeyedList.lookup_iff hs.auths_distinct).2 ?_, huser⟩
      exact hs.mem_auths.2 ⟨e, he, htoken, rfl, rfl, (timely e he htoken).1 hnow⟩
  have hanswered : ∀ a ∈ (⟨token, now, (s.manager.acquire token).2, s.issued⟩ : Answer) ::
      s.answers, ∀ u, a.result = some u ↔
        ∃ e ∈ a.issued, e.token = a.token ∧ e.user = u ∧ a.now ≤ e.expire :=
    List.forall_mem_cons.2 ⟨hanswer, hs.answered⟩
  rw [UserManager.acquire] at hanswered ⊢
  cases hlookup : s.manager.auths.lookup token with
  | none =>
      rw [hlookup] at hanswered
      exact ⟨hs.few, hs.seed, hs.tokens, hs.distinct, hs.auths, hs.fresh, hs.counted, hanswered⟩
  | some auth =>
      rw [hlookup] at hanswered
      have hmem := (KeyedList.lookup_iff hs.auths_distinct).1 hlookup
      have href : auth.user ∈ s.refs :=
        List.mem_append_left _ (List.mem_map.2 ⟨_, hmem, rfl⟩)
      refine ⟨hs.few, hs.seed, hs.tokens, hs.distinct, hs.auths, ?_, ?_, hanswered⟩
      · intro q hq
        obtain ⟨q', hq', hsame, -⟩ := RefsCounted.mem_modify hq
        exact hsame ▸ hs.fresh q' hq'
      · exact (hs.counted.addRef (hs.counted.user _ href) (room auth hlookup)).perm
          List.perm_middle.symm

theorem add (hs : s.Inv) (name group password : Bytes) :
    Inv { s with manager := (s.manager.add name group password).1 } := by
  rcases s.manager.add_cases name group password with hsame | hadded
  · rw [hsame]
    exact hs
  · rw [hadded]
    refine ⟨hs.few, hs.seed, hs.tokens, hs.distinct, hs.auths, ?_, ?_, hs.answered⟩
    · intro q hq
      rcases List.mem_cons.1 hq with rfl | hold
      · exact Nat.lt_succ_self _
      · exact Nat.lt_succ_of_lt (hs.fresh q hold)
    · exact hs.counted.add hs.fresh rfl

theorem remove (hs : s.Inv) (name : Bytes) :
    Inv { s with manager := (s.manager.remove name).1 } := by
  rcases s.manager.remove_cases name with hsame | ⟨p, hp, unused, herased⟩
  · rw [hsame]
    exact hs
  · rw [herased]
    exact ⟨hs.few, hs.seed, hs.tokens, hs.distinct, hs.auths,
      fun q hq => hs.fresh q (List.mem_of_mem_filter hq), hs.counted.remove hp unused, hs.answered⟩

theorem release (hs : s.Inv) {user : UserRef} (held : user ∈ s.acquired) :
    Inv { s with manager := s.manager.release user, acquired := s.acquired.erase user } := by
  refine ⟨hs.few, hs.seed, hs.tokens, hs.distinct, hs.auths, ?_, ?_, hs.answered⟩
  · intro q hq
    obtain ⟨q', hq', hsame, -⟩ := RefsCounted.mem_modify hq
    exact hsame ▸ hs.fresh q' hq'
  · have hperm : s.refs.Perm (user :: (s.manager.tokenRefs ++ s.acquired.erase user)) :=
      ((List.perm_cons_erase held).append_left _).trans List.perm_middle
    exact (hs.counted.perm hperm).decRef

theorem clearExpire (hs : s.Inv) (tick : Int64) :
    Inv { s with manager := s.manager.clearExpire tick,
                 issued := s.issued.map (Issued.swept tick) } := by
  obtain ⟨hauths, hcounted, hrefs, hseed, hfresh⟩ :=
    UserManager.clearLoop_spec tick (List.nil_append _).symm
      (List.Nodup.of_map _ hs.auths_distinct) hs.counted
  have hlength : (s.issued.map (Issued.swept tick)).length = s.issued.length := List.length_map _
  refine ⟨?_, ?_, ?_, ?_, ?_, ?_, hcounted, hs.answered⟩
  · exact hlength ▸ hs.few
  · exact hseed.trans (hlength ▸ hs.seed)
  · intro e he
    obtain ⟨old, hold, rfl⟩ := List.mem_map.1 he
    rw [hlength]
    exact hs.tokens old hold
  · rw [List.map_map]
    exact hs.distinct
  · show (s.manager.clearExpire tick).auths = _
    rw [UserManager.clearExpire, hauths, hs.auths, List.nil_append, List.filter_map,
      List.filter_filter, List.filter_map, List.map_map]
    congr 1
    exact List.filter_congr fun e _ => (Issued.standing_swept tick e).symm
  · intro q hq
    have hmem : q.1 ∈ s.manager.users.map Prod.fst := hrefs ▸ List.mem_map.2 ⟨q, hq, rfl⟩
    obtain ⟨q', hq', hsame⟩ := List.mem_map.1 hmem
    show q.1 < (UserManager.clearLoop tick s.manager s.manager.auths).fresh
    rw [hfresh, ← hsame]
    exact hs.fresh q' hq'

theorem step (hs : s.Inv) {a : SessionAct} (ha : InTime s a) (hstep : s.step a = some s') :
    s'.Inv := by
  cases a with
  | login name password tick =>
      rw [Sessions.step] at hstep
      cases hpass : s.manager.checked name password with
      | none =>
          rw [hpass, UserManager.login_unchecked hpass] at hstep
          cases hstep
          exact hs
      | some p =>
          rw [hpass] at hstep
          cases hstep
          obtain ⟨few, room⟩ := ha p hpass
          exact hs.login tick hpass few room
  | add name group password =>
      cases hstep
      exact hs.add name group password
  | remove name =>
      cases hstep
      exact hs.remove name
  | acquire token now =>
      cases hstep
      exact hs.acquire token now ha.1 ha.2
  | release user =>
      simp only [Sessions.step, Option.ite_none_right_eq_some] at hstep
      obtain ⟨held, hnext⟩ := hstep
      cases hnext
      exact hs.release held
  | clearExpire tick =>
      cases hstep
      exact hs.clearExpire tick

theorem kept (hs : s.Inv) : SessionsKept s where
  answered := hs.answered
  counted p hp := by
    rw [hs.counted.count p hp, refs, List.count_append, UserManager.tokenRefs, List.count,
      List.countP_map]
    rfl
  there e he := by
    have href : e.2.user ∈ s.refs := List.mem_append_left _ (List.mem_map.2 ⟨e, he, rfl⟩)
    exact List.mem_map.1 (hs.counted.user _ href)

end Inv

end Sessions

/-- Sessions are kept in every run whose calls are in time. -/
theorem sessions_kept {s : Sessions} (h : sessionSystem.Run InTime s) : SessionsKept s := by
  have hinv : s.Inv :=
    Transition.System.Run.invariant (fun _ => Sessions.Inv.of_init)
      (fun _ _ _ hs ha hstep => hs.step ha hstep) h
  exact hinv.kept

/-- `guest`. -/
def guestName : Bytes := [103, 117, 101, 115, 116]

/-- Two users, and tokens that are good for a minute. -/
def twoUsers : Sessions :=
  { manager := { users := [(0, { name := rootName, group := rootName, super := true }),
                           (1, { name := guestName, password := guestName })]
                 expire := 60000, fresh := 2 } }

theorem twoUsers_init : twoUsers.Init :=
  ⟨by decide +kernel, by decide +kernel, rfl, rfl, rfl, rfl, rfl⟩

/-- Both log in, `guest` is asked for in time, and its token runs out. -/
def briefSession : List SessionAct :=
  [.login rootName [] 0, .login guestName [] 10, .login guestName guestName 1000,
   .acquire (tokenAt 1) 2000, .clearExpire 60500, .release 1, .acquire (tokenAt 1) 60600,
   .release 1, .clearExpire 61001, .acquire (tokenAt 1) 61002, .remove guestName]

/-- The state `briefSession` reaches. -/
def afterSession : Sessions := (Transition.exec Sessions.step twoUsers briefSession).getD twoUsers

/-- Sessions are kept along it. -/
theorem sessions_kept_brief : SessionsKept afterSession := by
  have hexec : Transition.exec Sessions.step twoUsers briefSession = some afterSession := by
    decide +kernel
  have hrun : sessionSystem.Run InTime afterSession :=
    Transition.exec_run (.start twoUsers_init) (by decide +kernel) hexec
  exact sessions_kept hrun

/-- Eleven logins of `root` and one of `guest`, whose token is empty like the one before. -/
def twelveLogins : List SessionAct :=
  List.replicate 11 (.login rootName [] 0) ++ [.login guestName guestName 1]

/-- The state `twelveLogins` reaches. -/
def afterLogins : Sessions := (Transition.exec Sessions.step twoUsers twelveLogins).getD twoUsers

/-- `root` counts eleven references then, and there are ten. -/
theorem overwritten_token_counts :
    ¬ ∀ s, sessionSystem.Reachable s → SessionsKept s := by
  intro h
  have hexec : Transition.exec Sessions.step twoUsers twelveLogins = some afterLogins := by
    decide +kernel
  have hkept := h afterLogins (Transition.exec_reachable twoUsers_init hexec)
  have hroot : ∃ p ∈ afterLogins.manager.users, p.2.count.toInt ≠
      afterLogins.manager.auths.countP (fun e => e.2.user == p.1) +
        afterLogins.acquired.count p.1 := by
    decide +kernel
  obtain ⟨p, hp, hne⟩ := hroot
  exact hne (hkept.counted p hp)

end Ofs.Master

import Zookeeper.Ofs.Sessions

/-!
# The tokens of one process

`Generate` keeps its seed in a static variable: it is that of the process, and every
login that passes moves it on.  The calls of the manager come here in any order, with
the tokens of the logins that passed beside them.

The `i`-th login returns `tokenAt i` whatever the other calls do (`Logins.Inv.tokens`).
The first ten of these differ and none is empty, and from the eleventh on all are.  So
the tokens tell the logins apart as long as there are no more than ten
(`ownTokens_iff`).
-/

namespace Ofs.Master

/-- The manager, and the logins that passed with their tokens, the latest first. -/
structure Logins where
  manager : UserManager
  issued : List (Token × UserRef) := []
deriving DecidableEq, Repr

namespace Logins

/-- A call of the manager. -/
def step (s : Logins) : SessionAct → Option Logins
  | .login name password tick =>
      let r := s.manager.login name password tick
      match s.manager.checked name password with
      | some (u, _) => some { manager := r.1, issued := (r.2, u) :: s.issued }
      | none => some { s with manager := r.1 }
  | .add name group password => some { s with manager := (s.manager.add name group password).1 }
  | .remove name => some { s with manager := (s.manager.remove name).1 }
  | .acquire token _ => some { s with manager := (s.manager.acquire token).1 }
  | .release user => some { s with manager := s.manager.release user }
  | .clearExpire tick => some { s with manager := s.manager.clearExpire tick }

/-- The process has started, with any users. -/
structure Init (s : Logins) : Prop where
  auths : s.manager.auths = []
  seed : s.manager.seed = seedAfter 0
  issued : s.issued = []

/-- Every login got a token of its own: a token is that of one login, and presenting it
gives the user of that login, as long as it gives any. -/
structure OwnTokens (s : Logins) : Prop where
  written : ∀ e ∈ s.issued, e.1 ≠ []
  distinct : (s.issued.map Prod.fst).Nodup
  own : ∀ e ∈ s.issued, ∀ u, (s.manager.acquire e.1).2 = some u → u = e.2
  empty : (s.manager.acquire []).2 = none

end Logins

/-- The runs of one process. -/
def loginSystem : Transition.System Logins SessionAct :=
  Transition.ofStep Logins.Init Logins.step

/-! ## What a call leaves of the table -/

namespace UserManager

variable {m : UserManager}

theorem auths_add (name group password : Bytes) : (m.add name group password).1.auths = m.auths ∧
    (m.add name group password).1.seed = m.seed := by
  rcases m.add_cases name group password with hsame | hadded
  · rw [hsame]
    exact ⟨rfl, rfl⟩
  · rw [hadded]
    exact ⟨rfl, rfl⟩

theorem auths_remove (name : Bytes) : (m.remove name).1.auths = m.auths ∧
    (m.remove name).1.seed = m.seed := by
  rcases m.remove_cases name with hsame | ⟨p, -, -, herased⟩
  · rw [hsame]
    exact ⟨rfl, rfl⟩
  · rw [herased]
    exact ⟨rfl, rfl⟩

theorem auths_acquire (token : Token) : (m.acquire token).1.auths = m.auths ∧
    (m.acquire token).1.seed = m.seed := by
  rw [acquire]
  cases m.auths.lookup token with
  | none => exact ⟨rfl, rfl⟩
  | some auth => exact ⟨rfl, rfl⟩

/-- A pass drops entries and adds none. -/
theorem auths_clearLoop (tick : Int64) (rest : List (Token × Auth)) :
    (clearLoop tick m rest).auths.Sublist m.auths ∧ (clearLoop tick m rest).seed = m.seed := by
  induction rest generalizing m with
  | nil => exact ⟨.refl _, rfl⟩
  | cons e rest ih =>
      rw [clearLoop]
      split
      next =>
        obtain ⟨hsub, hseed⟩ := ih (m := m.drop e)
        exact ⟨hsub.trans List.erase_sublist, hseed⟩
      next => exact ih

/-- A token that is accepted has an entry, and gives the user of that entry. -/
theorem acquire_some {token : Token} {u : UserRef} (h : (m.acquire token).2 = some u) :
    ∃ e ∈ m.auths, e.1 = token ∧ e.2.user = u := by
  rw [acquire] at h
  cases hlookup : m.auths.lookup token with
  | none =>
      rw [hlookup] at h
      cases h
  | some auth =>
      rw [hlookup] at h
      cases h
      obtain ⟨before, after, hsplit, -⟩ := List.lookup_eq_some_iff.1 hlookup
      exact ⟨(token, auth), by rw [hsplit]; simp, rfl, rfl⟩

end UserManager

/-! ## The invariant -/

namespace Logins

/-- The tokens are the first ones, and an entry of the table is that of a login. -/
structure Inv (s : Logins) : Prop where
  seed : s.manager.seed = seedAfter s.issued.length
  tokens : s.issued.map Prod.fst = ((List.range s.issued.length).map tokenAt).reverse
  table : ∀ e ∈ s.manager.auths, (e.1, e.2.user) ∈ s.issued

namespace Inv

variable {s s' : Logins}

theorem of_init (h : s.Init) : s.Inv where
  seed := by
    rw [h.issued]
    exact h.seed
  tokens := by
    rw [h.issued]
    rfl
  table e he := by
    rw [h.auths] at he
    exact absurd he List.not_mem_nil

/-- A call that passes no login keeps the seed, and adds no entry. -/
theorem manager (hs : s.Inv) {m : UserManager} (sub : m.auths ⊆ s.manager.auths)
    (same : m.seed = s.manager.seed) : Inv { s with manager := m } where
  seed := same.trans hs.seed
  tokens := hs.tokens
  table e he := hs.table e (sub he)

theorem login (hs : s.Inv) {name password : Bytes} {p : UserRef × User} (tick : Int64)
    (pass : s.manager.checked name password = some p) :
    Inv ⟨(s.manager.login name password tick).1,
      ((s.manager.login name password tick).2, p.1) :: s.issued⟩ := by
  have htoken : (s.manager.login name password tick).2 = tokenAt s.issued.length := by
    simp only [UserManager.login, pass]
    show generate (nextSeed s.manager.seed) = _
    rw [hs.seed]
    rfl
  refine ⟨?_, ?_, ?_⟩
  · simp only [UserManager.login, pass]
    show nextSeed s.manager.seed = seedAfter (s.issued.length + 1)
    rw [hs.seed]
    rfl
  · rw [List.map_cons, hs.tokens, htoken, List.length_cons, List.range_succ, List.map_append,
      List.reverse_append]
    rfl
  · intro e he
    simp only [UserManager.login, pass, List.mem_cons] at he
    rcases he with rfl | hold
    · simp only [UserManager.login, pass]
      exact List.mem_cons_self
    · exact List.mem_cons_of_mem _ (hs.table e (List.mem_of_mem_filter hold))

theorem step (hs : s.Inv) {a : SessionAct} (h : s.step a = some s') : s'.Inv := by
  cases a with
  | login name password tick =>
      rw [Logins.step] at h
      cases hpass : s.manager.checked name password with
      | none =>
          rw [hpass, UserManager.login_unchecked hpass] at h
          cases h
          exact hs
      | some p =>
          rw [hpass] at h
          cases h
          exact hs.login tick hpass
  | add name group password =>
      cases h
      obtain ⟨hauths, hseed⟩ := s.manager.auths_add name group password
      exact hs.manager (fun e he => hauths ▸ he) hseed
  | remove name =>
      cases h
      obtain ⟨hauths, hseed⟩ := s.manager.auths_remove name
      exact hs.manager (fun e he => hauths ▸ he) hseed
  | acquire token now =>
      cases h
      obtain ⟨hauths, hseed⟩ := s.manager.auths_acquire token
      exact hs.manager (fun e he => hauths ▸ he) hseed
  | release user =>
      cases h
      exact hs.manager (List.Subset.refl _) rfl
  | clearExpire tick =>
      cases h
      obtain ⟨hsub, hseed⟩ := s.manager.auths_clearLoop tick s.manager.auths
      exact hs.manager hsub.subset hseed

/-- The token of a login is one of the first. -/
theorem exists_tokenAt (hs : s.Inv) {e : Token × UserRef} (he : e ∈ s.issued) :
    ∃ i < s.issued.length, e.1 = tokenAt i := by
  have hmem : e.1 ∈ s.issued.map Prod.fst := List.mem_map.2 ⟨e, he, rfl⟩
  rw [hs.tokens, List.mem_reverse] at hmem
  obtain ⟨i, hi, htoken⟩ := List.mem_map.1 hmem
  exact ⟨i, List.mem_range.1 hi, htoken.symm⟩

/-- The eleventh login returns the empty token. -/
theorem mem_of_eleven (hs : s.Inv) (many : 10 < s.issued.length) : ∃ e ∈ s.issued, e.1 = [] := by
  have hmem : tokenAt 10 ∈ s.issued.map Prod.fst := by
    rw [hs.tokens, List.mem_reverse]
    exact List.mem_map.2 ⟨10, List.mem_range.2 many, rfl⟩
  obtain ⟨e, he, htoken⟩ := List.mem_map.1 hmem
  exact ⟨e, he, htoken.trans (generate_exhausted 0)⟩

theorem distinct (hs : s.Inv) (few : s.issued.length ≤ 10) : (s.issued.map Prod.fst).Nodup := by
  rw [hs.tokens, List.nodup_reverse]
  refine List.Nodup.map_on (fun i hi j hj heq => ?_) List.nodup_range
  exact tokenAt_inj (Nat.lt_of_lt_of_le (List.mem_range.1 hi) few)
    (Nat.lt_of_lt_of_le (List.mem_range.1 hj) few) heq

theorem ownTokens (hs : s.Inv) (few : s.issued.length ≤ 10) : s.OwnTokens := by
  have hwritten : ∀ e ∈ s.issued, e.1 ≠ [] := by
    intro e he
    obtain ⟨i, hi, htoken⟩ := hs.exists_tokenAt he
    rw [htoken]
    exact tokens_written i (Nat.lt_of_lt_of_le hi few)
  refine ⟨hwritten, hs.distinct few, ?_, ?_⟩
  · intro e he u hu
    obtain ⟨f, hf, htoken, huser⟩ := UserManager.acquire_some hu
    have hsame : (f.1, f.2.user) = e :=
      List.inj_on_of_nodup_map (hs.distinct few) (hs.table f hf) he htoken
    rw [← huser, ← hsame]
  · rw [Option.eq_none_iff_forall_ne_some]
    intro u hu
    obtain ⟨f, hf, htoken, -⟩ := UserManager.acquire_some hu
    exact hwritten _ (hs.table f hf) htoken

end Inv

theorem inv_of_reachable {s : Logins} (h : loginSystem.Reachable s) : s.Inv :=
  Transition.System.Reachable.invariant (fun _ => Inv.of_init) (fun _ _ _ hs => hs.step) h

end Logins

/-- Whatever the calls, the logins have tokens of their own while they are ten or fewer,
and no longer. -/
theorem ownTokens_iff {s : Logins} (h : loginSystem.Reachable s) :
    s.OwnTokens ↔ s.issued.length ≤ 10 := by
  have hinv := Logins.inv_of_reachable h
  constructor
  · intro hown
    by_contra many
    obtain ⟨e, he, hempty⟩ := hinv.mem_of_eleven (Nat.lt_of_not_le many)
    exact hown.written e he hempty
  · exact hinv.ownTokens

/-- Ten logins of `root` with other calls between them. -/
def tenLogins : List SessionAct :=
  List.replicate 5 (.login rootName [] 0) ++
    [.login guestName [] 3, .acquire (tokenAt 2) 5, .clearExpire 70000, .release 0] ++
    List.replicate 5 (.login guestName guestName 80000)

/-- A master that starts with the users of `twoUsers`. -/
def freshMaster : Logins := { manager := twoUsers.manager }

theorem freshMaster_init : freshMaster.Init := ⟨rfl, rfl, rfl⟩

/-- The state `tenLogins` reaches. -/
def afterTen : Logins := (Transition.exec Logins.step freshMaster tenLogins).getD freshMaster

/-- Their tokens are their own. -/
theorem ownTokens_ten : afterTen.OwnTokens := by
  have hexec : Transition.exec Logins.step freshMaster tenLogins = some afterTen := by
    decide +kernel
  exact (ownTokens_iff (Transition.exec_reachable freshMaster_init hexec)).2 (by decide +kernel)

/-- The state eleven logins of `root` and one of `guest` reach. -/
def afterTwelve : Logins :=
  (Transition.exec Logins.step freshMaster twelveLogins).getD freshMaster

/-- The empty token passes for `guest` then, who logged in last, and `root` holds it too. -/
theorem empty_token_passes : ¬ ∀ s, loginSystem.Reachable s → s.OwnTokens := by
  intro h
  have hexec : Transition.exec Logins.step freshMaster twelveLogins = some afterTwelve := by
    decide +kernel
  have hown := h afterTwelve (Transition.exec_reachable freshMaster_init hexec)
  have hempty : (afterTwelve.manager.acquire []).2 = some 1 := by decide +kernel
  rw [hown.empty] at hempty
  cases hempty

end Ofs.Master

import Mathlib.Data.Set.Basic
import Mathlib.Data.List.Nodup

/-!
# Programs that draw numbers

A program that draws numbers is a tree: it returns, or it draws and goes on with what it drew.
`run` follows the numbers of a source, and `outcomes` are the values some source leads to.
What holds for every source holds for every outcome, and the other way round
(`forall_run_iff`), so that a program over all sources is reasoned about as a set.

`spin` goes once round a list from a drawn place and returns what the first test that
succeeds gives.  One item may be excluded, and is stepped over where it is met.  `Picks` says
that a program returns any member of a set and fails only if the set is empty.  Tests that
pick make a `spin` that picks (`spin_picks`).
-/

/-- A value, or a draw and what is done with the number. -/
inductive Chance (α : Type) where
  | done (a : α)
  | draw (next : Nat → Chance α)

namespace Chance

variable {α β : Type}

/-- One program and then another. -/
def bind : Chance α → (α → Chance β) → Chance β
  | done a, f => f a
  | draw next, f => draw fun n => (next n).bind f

/-- The value, and the number of draws, if the `i`-th draw gives `rand i`. -/
def run (rand : Nat → Nat) : Chance α → Nat → α × Nat
  | done a, i => (a, i)
  | draw next, i => (next (rand i)).run rand (i + 1)

/-- The values some draws lead to. -/
def outcomes : Chance α → Set α
  | done a => {a}
  | draw next => {a | ∃ n, a ∈ (next n).outcomes}

/-- At most so many draws. -/
def Within : Chance α → Nat → Prop
  | done _, _ => True
  | draw _, 0 => False
  | draw next, k + 1 => ∀ n, (next n).Within k

theorem run_bind (rand : Nat → Nat) (f : α → Chance β) (t : Chance α) : ∀ i,
    (t.bind f).run rand i = (f (t.run rand i).1).run rand (t.run rand i).2 := by
  induction t with
  | done a => exact fun i => rfl
  | draw next ih => exact fun i => ih (rand i) (i + 1)

@[simp]
theorem mem_outcomes_done {a b : α} : a ∈ (done b).outcomes ↔ a = b :=
  Iff.rfl

@[simp]
theorem mem_outcomes_draw {next : Nat → Chance α} {a : α} :
    a ∈ (draw next).outcomes ↔ ∃ n, a ∈ (next n).outcomes :=
  Iff.rfl

@[simp]
theorem mem_outcomes_bind {f : α → Chance β} {b : β} (t : Chance α) :
    b ∈ (t.bind f).outcomes ↔ ∃ a ∈ t.outcomes, b ∈ (f a).outcomes := by
  induction t with
  | done a => simp [bind]
  | draw next ih =>
      simp only [bind, mem_outcomes_draw, ih]
      constructor
      · rintro ⟨n, a, ha, hb⟩
        exact ⟨a, ⟨n, ha⟩, hb⟩
      · rintro ⟨a, ⟨n, ha⟩, hb⟩
        exact ⟨n, a, ha, hb⟩

/-! ## Runs and outcomes -/

/-- A run from the `i`-th draw on does not look at the draws before. -/
theorem run_congr {rand rand' : Nat → Nat} (t : Chance α) :
    ∀ {i}, (∀ j, i ≤ j → rand j = rand' j) → t.run rand i = t.run rand' i := by
  induction t with
  | done a => exact fun _ => rfl
  | draw next ih =>
      intro i h
      rw [run, run, h i (Nat.le_refl i)]
      exact ih _ fun j hj => h j (Nat.le_of_succ_le hj)

theorem run_mem_outcomes (rand : Nat → Nat) (t : Chance α) :
    ∀ i, (t.run rand i).1 ∈ t.outcomes := by
  induction t with
  | done a => exact fun i => rfl
  | draw next ih => exact fun i => ⟨rand i, ih (rand i) (i + 1)⟩

theorem exists_run (t : Chance α) :
    ∀ (i : Nat) {a : α}, a ∈ t.outcomes → ∃ rand, (t.run rand i).1 = a := by
  induction t with
  | done a => exact fun i b h => ⟨fun _ => 0, h.symm⟩
  | draw next ih =>
      rintro i a ⟨n, h⟩
      obtain ⟨rand, hrand⟩ := ih n (i + 1) h
      refine ⟨Function.update rand i n, ?_⟩
      rw [run, Function.update_self, ← hrand]
      congr 1
      refine run_congr _ fun j hj => Function.update_of_ne (Nat.ne_of_gt hj) n rand

theorem outcomes_nonempty (t : Chance α) : t.outcomes.Nonempty :=
  ⟨_, run_mem_outcomes (fun _ => 0) t 0⟩

/-- Every source gives a value with `Q` exactly if every outcome has it. -/
theorem forall_run_iff (t : Chance α) (i : Nat) {Q : α → Prop} :
    (∀ rand, Q (t.run rand i).1) ↔ ∀ a ∈ t.outcomes, Q a := by
  constructor
  · intro h a ha
    obtain ⟨rand, rfl⟩ := t.exists_run i ha
    exact h rand
  · exact fun h rand => h _ (run_mem_outcomes rand t i)

theorem within_done (a : α) (k : Nat) : (done a).Within k :=
  trivial

theorem Within.mono {t : Chance α} : ∀ {k m}, t.Within k → k ≤ m → t.Within m := by
  induction t with
  | done a => exact fun _ _ => trivial
  | draw next ih =>
      intro k m h hle
      cases k with
      | zero => exact h.elim
      | succ k =>
          cases m with
          | zero => exact absurd hle (Nat.not_succ_le_zero k)
          | succ m => exact fun n => ih n (h n) (Nat.le_of_succ_le_succ hle)

theorem Within.bind {f : α → Chance β} {m : Nat} (hf : ∀ a, (f a).Within m) {t : Chance α} :
    ∀ {k}, t.Within k → (t.bind f).Within (k + m) := by
  induction t with
  | done a => exact fun {k} _ => (hf a).mono (Nat.le_add_left m k)
  | draw next ih =>
      intro k h
      cases k with
      | zero => exact h.elim
      | succ k =>
          rw [Nat.add_right_comm]
          exact fun n => ih n (h n)

theorem Within.run_le (rand : Nat → Nat) {t : Chance α} :
    ∀ {k i}, t.Within k → (t.run rand i).2 ≤ i + k := by
  induction t with
  | done a => exact fun {k i} _ => Nat.le_add_right i k
  | draw next ih =>
      intro k i h
      cases k with
      | zero => exact h.elim
      | succ k =>
          have hnext : ((next (rand i)).run rand (i + 1)).2 ≤ i + 1 + k := ih (rand i) (h (rand i))
          rw [Nat.add_right_comm] at hnext
          exact hnext

/-! ## Programs that pick -/

/-- The second program, if the first one fails. -/
def orElse (t other : Chance (Option β)) : Chance (Option β) :=
  t.bind fun
    | some b => done (some b)
    | none => other

/-- The program returns any member of the set, and fails only if there is none. -/
structure Picks (t : Chance (Option β)) (S : Set β) : Prop where
  some_iff : ∀ b, some b ∈ t.outcomes ↔ b ∈ S
  none_iff : none ∈ t.outcomes ↔ S = ∅

theorem Picks.congr {t : Chance (Option β)} {S T : Set β} (h : Picks t S)
    (hiff : ∀ b, b ∈ S ↔ b ∈ T) : Picks t T :=
  Set.ext hiff ▸ h

/-- The second program picks where there is nothing to pick for the first one. -/
theorem Picks.orElse {t other : Chance (Option β)} {S T : Set β} (ht : Picks t S)
    (hother : Picks other T) : Picks (t.orElse other) {b | b ∈ S ∨ (S = ∅ ∧ b ∈ T)} := by
  refine ⟨fun b => ?_, ?_⟩
  · rw [Chance.orElse, mem_outcomes_bind]
    constructor
    · rintro ⟨o, ho, h⟩
      cases o with
      | some b' => exact .inl ((ht.some_iff b).mp (Option.some.inj h ▸ ho))
      | none => exact .inr ⟨ht.none_iff.mp ho, (hother.some_iff b).mp h⟩
    · rintro (h | ⟨hempty, h⟩)
      · exact ⟨some b, (ht.some_iff b).mpr h, rfl⟩
      · exact ⟨none, ht.none_iff.mpr hempty, (hother.some_iff b).mpr h⟩
  · rw [Chance.orElse, mem_outcomes_bind]
    constructor
    · rintro ⟨o, ho, h⟩
      cases o with
      | some b => exact absurd h (Option.some_ne_none b).symm
      | none =>
          have hS := ht.none_iff.mp ho
          have hT := hother.none_iff.mp h
          simp [hS, hT]
    · intro hempty
      have hS : S = ∅ := Set.eq_empty_iff_forall_notMem.mpr fun b hb =>
        Set.eq_empty_iff_forall_notMem.mp hempty b (.inl hb)
      have hT : T = ∅ := Set.eq_empty_iff_forall_notMem.mpr fun b hb =>
        Set.eq_empty_iff_forall_notMem.mp hempty b (.inr ⟨hS, hb⟩)
      exact ⟨none, ht.none_iff.mpr hS, hother.none_iff.mpr hT⟩

/-! ## Going round a list -/

/-- The items a scan looks at.  An excluded item that is the only one is looked at. -/
def allowed (items : List α) (exclude : Option α) : Set α :=
  {x | x ∈ items ∧ (some x ≠ exclude ∨ items.length = 1)}

@[simp]
theorem mem_allowed_none {items : List α} {x : α} : x ∈ allowed items none ↔ x ∈ items := by
  simp [allowed]

variable [DecidableEq α]

/-- The place to look at: the next one if the excluded item is here. -/
def place (items : List α) (exclude : Option α) (r : Nat) : Nat :=
  if items[r]? = exclude then (r + 1) % items.length else r

/-- So many rounds of the loop from place `r` on. -/
def scan (test : α → Chance (Option β)) (items : List α) (exclude : Option α) :
    Nat → Nat → Chance (Option β)
  | 0, _ => done none
  | c + 1, r =>
      match items[place items exclude r]? with
      | none => done none
      | some x => (test x).bind fun
          | some b => done (some b)
          | none => scan test items exclude c ((place items exclude r + 1) % items.length)

/-- Once round the list, from a drawn place on. -/
def spin (shift : Nat) (test : α → Chance (Option β)) (items : List α) (exclude : Option α) :
    Chance (Option β) :=
  if items = [] then done none
  else draw fun n => scan test items exclude items.length ((n + shift) % items.length)

section Scan

variable {test : α → Chance (Option β)} {items : List α} {exclude : Option α}

theorem place_lt {r : Nat} (hr : r < items.length) : place items exclude r < items.length := by
  rw [place]
  split
  next => exact Nat.mod_lt _ (Nat.zero_lt_of_lt hr)
  next => exact hr

/-- What is looked at is allowed. -/
theorem mem_allowed_of_place (distinct : items.Nodup) {r : Nat} (hr : r < items.length) {x : α}
    (hx : items[place items exclude r]? = some x) : x ∈ allowed items exclude := by
  refine ⟨List.mem_of_getElem? hx, ?_⟩
  rw [place] at hx
  split at hx
  next hex =>
    refine or_iff_not_imp_right.mpr fun hone hsame => ?_
    -- the next place holds another item, as there are at least two
    rw [← hsame, ← hx] at hex
    have hnext := (List.getElem?_inj hr distinct).mp hex
    rcases Nat.lt_or_ge (r + 1) items.length with hlt | hge
    · rw [Nat.mod_eq_of_lt hlt] at hnext
      omega
    · have hlast : r + 1 = items.length := by omega
      rw [hlast, Nat.mod_self] at hnext
      omega
  next hex =>
    rw [hx] at hex
    exact .inl hex

/-- An allowed item is looked at where the loop meets it. -/
theorem place_of_allowed {r : Nat} {x : α} (hx : items[r]? = some x)
    (hallowed : x ∈ allowed items exclude) : place items exclude r = r := by
  rw [place]
  split
  next hex =>
    rw [hx] at hex
    have hone := hallowed.2.resolve_left fun hne => hne hex
    have hr := (List.getElem?_eq_some_iff.mp hx).1
    rw [hone, Nat.mod_one]
    omega
  next => rfl

/-- One round: an item is looked at, and its test succeeds or the scan goes on. -/
theorem mem_scan_succ {r : Nat} (hr : r < items.length) (c : Nat) {o : Option β} :
    o ∈ (scan test items exclude (c + 1) r).outcomes ↔
      ∃ x, items[place items exclude r]? = some x ∧
        ((∃ b, o = some b ∧ some b ∈ (test x).outcomes) ∨
          (none ∈ (test x).outcomes ∧
            o ∈ (scan test items exclude c
              ((place items exclude r + 1) % items.length)).outcomes)) := by
  rw [scan]
  split
  next hnone => exact absurd (List.getElem?_eq_none_iff.mp hnone) (Nat.not_le.mpr (place_lt hr))
  next x hx =>
    rw [mem_outcomes_bind]
    constructor
    · rintro ⟨o', ho', h⟩
      cases o' with
      | some b => exact ⟨x, hx, .inl ⟨b, h, ho'⟩⟩
      | none => exact ⟨x, hx, .inr ⟨ho', h⟩⟩
    · rintro ⟨x', hx', h⟩
      obtain rfl := Option.some.inj (hx.symm.trans hx')
      rcases h with ⟨b, rfl, hb⟩ | ⟨hnone, h⟩
      · exact ⟨some b, hb, rfl⟩
      · exact ⟨none, hnone, h⟩

/-- What a scan returns is what the test of an item gives that it looks at. -/
theorem exists_of_scan_some {b : β} (c : Nat) :
    ∀ {r}, r < items.length → some b ∈ (scan test items exclude c r).outcomes →
      ∃ q < items.length, ∃ x, items[place items exclude q]? = some x ∧
        some b ∈ (test x).outcomes := by
  induction c with
  | zero => exact fun _ h => absurd h (Option.some_ne_none b)
  | succ c ih =>
      intro r hr h
      obtain ⟨x, hx, ⟨b', hb, h⟩ | ⟨-, h⟩⟩ := (mem_scan_succ hr c).mp h
      · exact ⟨r, hr, x, hx, hb ▸ h⟩
      · exact ih (Nat.mod_lt _ (Nat.zero_lt_of_lt hr)) h

/-- A scan that fails has looked at the allowed items of so many places. -/
theorem none_of_scan_none (c : Nat) :
    ∀ {r}, r < items.length → none ∈ (scan test items exclude c r).outcomes →
      ∀ j < c, ∀ x ∈ allowed items exclude, items[(r + j) % items.length]? = some x →
        none ∈ (test x).outcomes := by
  induction c with
  | zero => exact fun _ _ j hj => absurd hj (Nat.not_lt_zero j)
  | succ c ih =>
      intro r hr h j hj x hallowed hx
      obtain ⟨y, hy, ⟨_, hb, -⟩ | ⟨hnone, h⟩⟩ := (mem_scan_succ hr c).mp h
      · exact absurd hb.symm (Option.some_ne_none _)
      · have hrest := ih (Nat.mod_lt _ (Nat.zero_lt_of_lt hr)) h
        -- the place of `x` is the one looked at, or further on
        suffices hfar : items[place items exclude r]? = some x ∨
            ∃ i < c, (place items exclude r + 1 + i) % items.length = (r + j) % items.length by
          rcases hfar with hhere | ⟨i, hi, hfar⟩
          · rw [hhere] at hy
            exact Option.some.inj hy ▸ hnone
          · refine hrest i hi x hallowed ?_
            rw [Nat.mod_add_mod, hfar]
            exact hx
        cases j with
        | zero =>
            rw [Nat.add_zero, Nat.mod_eq_of_lt hr] at hx
            rw [place_of_allowed hx hallowed]
            exact .inl hx
        | succ j =>
            rw [place]
            split
            next =>
              cases j with
              | zero => exact .inl hx
              | succ j =>
                  refine .inr ⟨j, by omega, ?_⟩
                  rw [Nat.add_assoc, Nat.mod_add_mod]
                  congr 1
                  omega
            next => exact .inr ⟨j, by omega, by congr 1; omega⟩

/-- What the test of an allowed item gives is returned by a scan that begins there. -/
theorem scan_some_of_mem {x : α} {r : Nat} (hx : items[r]? = some x)
    (hallowed : x ∈ allowed items exclude) {b : β} (hb : some b ∈ (test x).outcomes) (c : Nat) :
    some b ∈ (scan test items exclude (c + 1) r).outcomes := by
  refine (mem_scan_succ (List.getElem?_eq_some_iff.mp hx).1 c).mpr ⟨x, ?_, .inl ⟨b, rfl, hb⟩⟩
  rw [place_of_allowed hx hallowed]
  exact hx

/-- A scan fails if all the tests may fail. -/
theorem scan_none_of_forall (distinct : items.Nodup)
    (h : ∀ x ∈ allowed items exclude, none ∈ (test x).outcomes) (c : Nat) :
    ∀ {r}, r < items.length → none ∈ (scan test items exclude c r).outcomes := by
  induction c with
  | zero => exact fun _ => rfl
  | succ c ih =>
      intro r hr
      have hplace : place items exclude r < items.length := place_lt hr
      have hx := List.getElem?_eq_getElem hplace
      exact (mem_scan_succ hr c).mpr ⟨_, hx, .inr
        ⟨h _ (mem_allowed_of_place distinct hr hx), ih (Nat.mod_lt _ (Nat.zero_lt_of_lt hr))⟩⟩

/-- What a round returns is what the test of an item gives. -/
theorem exists_of_spin_some {shift : Nat} {b : β}
    (h : some b ∈ (spin shift test items exclude).outcomes) :
    ∃ x ∈ items, some b ∈ (test x).outcomes := by
  rw [spin] at h
  split at h
  next => exact absurd h (Option.some_ne_none b)
  next hne =>
    obtain ⟨n, hn⟩ := h
    obtain ⟨_, -, x, hx, hb⟩ :=
      exists_of_scan_some _ (Nat.mod_lt _ (List.length_pos_iff.mpr hne)) hn
    exact ⟨x, List.mem_of_getElem? hx, hb⟩

/-- From any place of a round every place is reached in less than a round. -/
theorem exists_steps {n s r : Nat} (hs : s < n) (hr : r < n) : ∃ j < n, (s + j) % n = r :=
  ⟨(r + n - s) % n, Nat.mod_lt _ (Nat.zero_lt_of_lt hr), by
    rw [Nat.add_mod_mod, Nat.add_sub_cancel' (by omega), Nat.add_mod_right, Nat.mod_eq_of_lt hr]⟩

/-- Tests that pick make a round that picks. -/
theorem spin_picks (distinct : items.Nodup) {S : α → Set β}
    (h : ∀ x ∈ allowed items exclude, Picks (test x) (S x)) (shift : Nat) :
    Picks (spin shift test items exclude) {b | ∃ x ∈ allowed items exclude, b ∈ S x} := by
  rw [spin]
  split
  next hempty =>
    subst hempty
    exact ⟨fun b => by simp [allowed], by simp [allowed]⟩
  next hne =>
    have hpos := List.length_pos_iff.mpr hne
    refine ⟨fun b => ⟨?_, ?_⟩, ⟨?_, ?_⟩⟩
    · rintro ⟨n, hn⟩
      obtain ⟨r, hr, x, hx, hb⟩ := exists_of_scan_some _ (Nat.mod_lt _ hpos) hn
      have hallowed := mem_allowed_of_place distinct hr hx
      exact ⟨x, hallowed, ((h x hallowed).some_iff b).mp hb⟩
    · rintro ⟨x, hx, hb⟩
      obtain ⟨r, hr⟩ := List.getElem?_of_mem hx.1
      obtain ⟨n, -, hn⟩ := exists_steps (Nat.mod_lt shift hpos) (List.getElem?_eq_some_iff.mp hr).1
      refine ⟨n, ?_⟩
      dsimp only
      rw [Nat.add_comm, ← Nat.mod_add_mod, hn, ← Nat.sub_add_cancel hpos]
      exact scan_some_of_mem hr hx (((h x hx).some_iff b).mpr hb) _
    · rintro ⟨n, hn⟩
      refine Set.eq_empty_iff_forall_notMem.mpr ?_
      rintro b ⟨x, hx, hb⟩
      obtain ⟨r, hr⟩ := List.getElem?_of_mem hx.1
      obtain ⟨j, hj, rfl⟩ :=
        exists_steps (Nat.mod_lt (n + shift) hpos) (List.getElem?_eq_some_iff.mp hr).1
      have hnone := none_of_scan_none _ (Nat.mod_lt _ hpos) hn j hj x hx hr
      exact Set.eq_empty_iff_forall_notMem.mp ((h x hx).none_iff.mp hnone) b hb
    · intro hempty
      refine ⟨0, scan_none_of_forall distinct (fun x hx => ?_) _ (Nat.mod_lt _ hpos)⟩
      refine (h x hx).none_iff.mpr (Set.eq_empty_iff_forall_notMem.mpr fun b hb => ?_)
      exact Set.eq_empty_iff_forall_notMem.mp hempty b ⟨x, hx, hb⟩

/-- A round makes a draw, and so many draws for each item. -/
theorem spin_within {k : Nat} (h : ∀ x ∈ items, (test x).Within k) (shift : Nat) :
    (spin shift test items exclude).Within (1 + items.length * k) := by
  have hscan (c : Nat) : ∀ r, (scan test items exclude c r).Within (c * k) := by
    induction c with
    | zero => exact fun r => trivial
    | succ c ih =>
        intro r
        rw [Nat.succ_mul, Nat.add_comm (c * k) k, scan]
        split
        next => trivial
        next x hx =>
          refine Within.bind (fun o => ?_) (h x (List.mem_of_getElem? hx))
          cases o with
          | some b => trivial
          | none => exact ih _
  rw [spin]
  split
  next => trivial
  next =>
    rw [Nat.add_comm 1]
    exact fun n => hscan _ _

end Scan

end Chance

import Criteria.Proofs.Reachability

/-!
# Numbers keep their lists

**Theorem (`history_keeps_numbers`).** Whatever is done to the tables of a store and to copies of
them, in all of them index and entries are inverse to each other and the count is the number of
lists that are there; a list that is there keeps its number and any other list gets the next one,
or a fault that changes nothing; and what was once issued for a list answers with that list until a
sweep does not reach it, and with the fault that it is reclaimed forever after.

A history is a list of actions. That the tables stay in step is kept by each action
(`Coherent.perform`). What a single action does to the numbers that are issued already is one lemma
(`list?_perform`): the list of a number stays unless the action *reclaims* the number, and none
comes back. By induction on the history the list stays unless some action reclaims it
(`list?_run`), and a number is never issued a second time for another list (`list?_of_issues`), so
the number of a list that is registered again after a sweep is a new one.
-/

namespace Criteria

namespace Store.Raw

/-! ## Histories -/

/-- What can be done to the tables of a store. -/
inductive Action where
  | register (l : List Node)
  | sweep (roots : List Node)
  /-- A sweep above the threshold of the tables. -/
  | sweepFull (roots : List Node)
  | sweepAbove (roots : List Node) (threshold : Nat)
  | setThreshold (threshold : Nat)

variable {r t : Raw} {l l' : List Node} {id : Nat} {h : List Action}

/-- The tables after an action, also after one that fails. -/
def perform (r : Raw) : Action → Raw
  | .register l =>
    match register l r with
    | .ok _ t => t
    | .error _ t => t
  | .sweep roots => (r.sweep roots).2
  | .sweepFull roots => (r.sweepAbove roots r.threshold).2
  | .sweepAbove roots threshold => (r.sweepAbove roots threshold).2
  | .setThreshold threshold => { r with threshold }

/-- The tables after a history. -/
def run (r : Raw) (h : List Action) : Raw := h.foldl perform r

/-- Whether an action sweeps and does not reach a number. -/
def Reclaims (r : Raw) (id : Nat) : Action → Prop
  | .register _ | .setThreshold _ => False
  | .sweep roots => ¬ r.Reaches roots id
  | .sweepFull roots => r.threshold < r.live ∧ ¬ r.Reaches roots id
  | .sweepAbove roots threshold => threshold < r.live ∧ ¬ r.Reaches roots id

/-- Whether some action of a history reclaims a number. -/
def Loses (r : Raw) (id : Nat) : List Action → Prop
  | [] => False
  | a :: h => r.Reclaims id a ∨ (r.perform a).Loses id h

/-- Whether some action of a history registers a list and gets a number for it. -/
def Issues (r : Raw) (id : Nat) (l : List Node) : List Action → Prop
  | [] => False
  | a :: h => (∃ t, a = .register l ∧ register l r = .ok id t) ∨ (r.perform a).Issues id l h

/-! ## Actions -/

theorem perform_of_ok (eq : register l r = .ok id t) : r.perform (.register l) = t := by
  rw [perform, eq]

/-- A list that cannot be registered leaves the tables as they were. -/
theorem perform_of_error {fault : Fault} (eq : register l r = .error fault t) :
    r.perform (.register l) = r := by
  obtain ⟨rfl, -⟩ := register_eq_error eq
  rw [perform, eq]

theorem Coherent.perform (h : r.Coherent) (a : Action) : (r.perform a).Coherent := by
  cases a with
  | register l =>
    cases eq : Raw.register l r with
    | ok id t =>
      rw [perform_of_ok eq]
      exact h.register eq
    | error fault t =>
      rw [perform_of_error eq]
      exact h
  | sweep roots => exact h.sweep roots
  | sweepFull roots => exact h.sweepAbove roots r.threshold
  | sweepAbove roots threshold => exact h.sweepAbove roots threshold
  | setThreshold threshold => exact ⟨h.find?_iff, h.live_eq⟩

theorem Coherent.run (coh : r.Coherent) (h : List Action) : (r.run h).Coherent := by
  induction h generalizing r with
  | nil => exact coh
  | cons a h ih => exact ih (coh.perform a)

/-- A list that was registered is there under its number, and no other list has moved. -/
theorem list?_of_register (coh : r.Coherent) (eq : register l r = .ok id t) :
    t.list? id = some l ∧ ∀ j < r.size, t.list? j = r.list? j := by
  rcases register_eq_ok eq with ⟨found, rfl⟩ | ⟨-, -, rfl, rfl⟩
  · exact ⟨(coh.find?_iff l id).1 found, fun _ _ => rfl⟩
  · refine ⟨by rw [list?_push, if_pos rfl], fun j lt => ?_⟩
    rw [list?_push, if_neg (Nat.ne_of_lt lt)]

theorem lookup_push : (r.push l).lookup id = if id = r.size then .ok l else r.lookup id := by
  by_cases last : id = r.size
  · rw [if_pos last, lookup_eq_ok_iff, list?_push, if_pos last]
  · have entry : (r.push l).entries[id]? = r.entries[id]? :=
      Array.getElem?_push.trans (if_neg last)
    rw [if_neg last, lookup, entry, lookup]

/-- An action that is a sweep if there are many lists and nothing else. -/
theorem list?_sweepAbove (coh : r.Coherent) {roots : List Node} {threshold : Nat} :
    (r.sweepAbove roots threshold).2.list? id = some l ↔
      r.list? id = some l ∧ ¬ (threshold < r.live ∧ ¬ r.Reaches roots id) := by
  rw [sweepAbove]
  by_cases few : r.live ≤ threshold
  · rw [if_pos few]
    simp [Nat.not_lt.2 few]
  · rw [if_neg few, coh.list?_sweep]
    by_cases reached : r.Reaches roots id
    · simp [mem_reachable_iff, reached]
    · simp [mem_reachable_iff, reached, Nat.lt_of_not_le few]

theorem size_sweepAbove (coh : r.Coherent) {roots : List Node} {threshold : Nat} :
    (r.sweepAbove roots threshold).2.size = r.size := by
  rw [sweepAbove]
  by_cases few : r.live ≤ threshold
  · rw [if_pos few]
  · rw [if_neg few]
    exact coh.size_sweep roots

/-- **What an action does to the numbers that are issued already.** -/
theorem list?_perform (coh : r.Coherent) (a : Action) (lt : id < r.size) :
    (r.perform a).list? id = some l ↔ r.list? id = some l ∧ ¬ r.Reclaims id a := by
  cases a with
  | register m =>
    rw [Reclaims, not_false_eq_true, and_true]
    cases eq : register m r with
    | ok id' t => rw [perform_of_ok eq, (list?_of_register coh eq).2 id lt]
    | error fault t => rw [perform_of_error eq]
  | sweep roots =>
    rw [perform, Reclaims, coh.list?_sweep]
    by_cases reached : r.Reaches roots id
    · simp [mem_reachable_iff, reached]
    · simp [mem_reachable_iff, reached]
  | sweepFull roots => exact list?_sweepAbove coh
  | sweepAbove roots threshold => exact list?_sweepAbove coh
  | setThreshold threshold =>
    rw [Reclaims, not_false_eq_true, and_true]
    exact Iff.rfl

/-- An action issues the next number or none. -/
theorem size_perform (coh : r.Coherent) (a : Action) :
    (r.perform a).size = r.size ∨ (r.perform a).size = r.size + 1 ∧
      ∃ l t, a = .register l ∧ register l r = .ok r.size t := by
  cases a with
  | register l =>
    cases eq : register l r with
    | ok id t =>
      rw [perform_of_ok eq]
      rcases register_eq_ok eq with ⟨-, rfl⟩ | ⟨-, -, rfl, rfl⟩
      · exact .inl rfl
      · exact .inr ⟨size_push, l, _, rfl, eq⟩
    | error fault t => exact .inl (congrArg size (perform_of_error eq))
  | sweep roots => exact .inl (coh.size_sweep roots)
  | sweepFull roots => exact .inl (size_sweepAbove coh)
  | sweepAbove roots threshold => exact .inl (size_sweepAbove coh)
  | setThreshold threshold => exact .inl rfl

theorem size_le_perform (coh : r.Coherent) (a : Action) : r.size ≤ (r.perform a).size := by
  rcases size_perform coh a with same | ⟨next, -⟩
  · exact Nat.le_of_eq same.symm
  · exact next ▸ Nat.le_succ _

/-! ## Runs -/

theorem size_le_run (coh : r.Coherent) (h : List Action) : r.size ≤ (r.run h).size := by
  induction h generalizing r with
  | nil => exact Nat.le_refl _
  | cons a h ih => exact Nat.le_trans (size_le_perform coh a) (ih (coh.perform a))

/-- **What a history does to the numbers that are issued already.** -/
theorem list?_run (coh : r.Coherent) (h : List Action) (lt : id < r.size) :
    (r.run h).list? id = some l ↔ r.list? id = some l ∧ ¬ r.Loses id h := by
  induction h generalizing r with
  | nil => simp [run, Loses]
  | cons a h ih =>
    have later : ((r.perform a).run h).list? id = some l ↔ _ :=
      ih (coh.perform a) (Nat.lt_of_lt_of_le lt (size_le_perform coh a))
    rw [list?_perform coh a lt, and_assoc, ← not_or] at later
    exact later

/-- A number that is issued in a history for a list either is new or has stood for that list. -/
theorem list?_of_issues (coh : r.Coherent) (issues : r.Issues id l h) (lt : id < r.size) :
    r.list? id = some l := by
  induction h generalizing r with
  | nil => exact issues.elim
  | cons a h ih =>
    rcases issues with ⟨t, rfl, eq⟩ | later
    · obtain ⟨there, same⟩ := list?_of_register coh eq
      rwa [same id lt] at there
    · have there := ih (coh.perform a) later (Nat.lt_of_lt_of_le lt (size_le_perform coh a))
      exact ((list?_perform coh a lt).1 there).1

theorem lt_size_of_issues (coh : r.Coherent) (issues : r.Issues id l h) : id < (r.run h).size := by
  induction h generalizing r with
  | nil => exact issues.elim
  | cons a h ih =>
    have kept := coh.perform a
    rcases issues with ⟨t, rfl, eq⟩ | later
    · have now : id < (r.perform (.register l)).size := by
        rw [perform_of_ok eq]
        exact t.lt_size_of_list? (list?_of_register coh eq).1
      exact Nat.lt_of_lt_of_le now (size_le_run kept h)
    · exact ih kept later

/-- No number is issued for two lists. -/
theorem issues_unique (coh : r.Coherent) (issues : r.Issues id l h) (issues' : r.Issues id l' h) :
    l' = l := by
  induction h generalizing r with
  | nil => exact issues.elim
  | cons a h ih =>
    -- What is issued first still stands for its list, or is never issued again.
    have first : ∀ {m m' : List Node}, (∃ t, a = .register m ∧ register m r = .ok id t) →
        (r.perform a).Issues id m' h → m' = m := by
      rintro m m' ⟨t, rfl, eq⟩ later
      rw [perform_of_ok eq] at later
      have there := (list?_of_register coh eq).1
      have there' := list?_of_issues (coh.register eq) later (t.lt_size_of_list? there)
      exact Option.some.inj (there'.symm.trans there)
    rcases issues with now | later
    · rcases issues' with ⟨t', eq, -⟩ | later'
      · obtain ⟨t, rfl, -⟩ := now
        cases eq
        rfl
      · exact first now later'
    · rcases issues' with now' | later'
      · exact (first now' later).symm
      · exact ih (coh.perform a) later later'

/-- Every number is issued for some list. -/
theorem exists_issues (coh : r.Coherent) (h : List Action) (le : r.size ≤ id)
    (lt : id < (r.run h).size) : ∃ l, r.Issues id l h := by
  induction h generalizing r with
  | nil => exact absurd lt (Nat.not_lt.2 le)
  | cons a h ih =>
    by_cases before : (r.perform a).size ≤ id
    · obtain ⟨l, later⟩ := ih (coh.perform a) before lt
      exact ⟨l, .inr later⟩
    · rcases size_perform coh a with same | ⟨next, l, t, eq, now⟩
      · rw [same] at before
        exact absurd le before
      · obtain rfl : id = r.size := by omega
        exact ⟨l, .inl ⟨t, eq, now⟩⟩

/-- What was issued stands for its list until it is reclaimed, and is reclaimed ever after. -/
theorem lookup_run_of_register (coh : r.Coherent) (eq : register l r = .ok id t)
    (rest : List Action) :
    (¬ t.Loses id rest → (t.run rest).lookup id = .ok l) ∧
    (t.Loses id rest → (t.run rest).lookup id = .error (.reclaimed id)) := by
  have kept := coh.register eq
  have there := (list?_of_register coh eq).1
  have lt := t.lt_size_of_list? there
  constructor
  · intro stays
    exact lookup_eq_ok_iff.2 ((list?_run kept rest lt).2 ⟨there, stays⟩)
  · intro lost
    apply lookup_eq_reclaimed (Nat.lt_of_lt_of_le lt (size_le_run kept rest))
    rw [Option.eq_none_iff_forall_ne_some]
    intro m hm
    exact ((list?_run kept rest lt).1 hm).2 lost

/-- The numbers that were not issued since the tables were empty never were. -/
theorem lookup_run_empty (threshold : Nat) (h : List Action) (id : Nat) :
    ((empty threshold).run h).lookup id = .error (.neverIssued id) ↔
      ∀ l, ¬ (empty threshold).Issues id l h := by
  have start := coherent_empty threshold
  rw [lookup_eq_neverIssued_iff]
  constructor
  · intro le l issues
    exact absurd (lt_size_of_issues start issues) (Nat.not_lt.2 le)
  · intro never
    by_contra lt
    obtain ⟨l, issues⟩ := exists_issues start h (Nat.zero_le id) (Nat.lt_of_not_le lt)
    exact never l issues

/-- After a list is registered, the rest of a history goes on with the tables that this left. -/
theorem run_register {before rest : List Action} (eq : register l (r.run before) = .ok id t) :
    r.run (before ++ .register l :: rest) = t.run rest := by
  rw [run, List.foldl_append, List.foldl_cons]
  show ((r.run before).perform (.register l)).run rest = _
  rw [perform_of_ok eq]

/-! ## Copies -/

/-- Tables with what was done to them, and to what they are a copy of, since they were empty. -/
structure Party where
  tables : Raw
  past : List Action

/-- The party after one more action. -/
def Party.perform (p : Party) (a : Action) : Party := ⟨p.tables.perform a, p.past ++ [a]⟩

/-- What can be done to some tables of which some are copies of others. -/
inductive Step where
  /-- An action on the `i`th of them. -/
  | act (i : Nat) (a : Action)
  /-- A copy of the `i`th, put after the last. -/
  | copy (i : Nat)

/-- The parties after a step. -/
def Step.apply (ps : List Party) : Step → List Party
  | .act i a => ps.modify i (·.perform a)
  | .copy i => ps ++ ps[i]?.toList

/-- The parties that some steps make of empty tables. -/
def parties (threshold : Nat) (steps : List Step) : List Party :=
  steps.foldl Step.apply [⟨empty threshold, []⟩]

/-- What an action keeps of a party, a step keeps of all of them. -/
theorem Step.forall_apply {P : Party → Prop} (keeps : ∀ p a, P p → P (p.perform a))
    {ps : List Party} (all : ∀ p ∈ ps, P p) (step : Step) : ∀ p ∈ step.apply ps, P p := by
  intro p hp
  cases step with
  | act i a =>
    obtain ⟨j, hj⟩ := List.mem_iff_getElem?.1 hp
    rw [apply, List.getElem?_modify, Option.map_eq_map, Option.map_eq_some_iff] at hj
    obtain ⟨q, hq, rfl⟩ := hj
    have old := all q (List.mem_of_getElem? hq)
    split
    · exact keeps q a old
    · exact old
  | copy i =>
    rcases List.mem_append.1 hp with old | copied
    · exact all p old
    · rw [Option.mem_toList] at copied
      exact all p (List.mem_of_getElem? copied)

/-- The tables of a party are what its own past makes of empty ones. -/
theorem tables_eq_run {threshold : Nat} {steps : List Step} :
    ∀ p ∈ parties threshold steps, p.tables = (empty threshold).run p.past := by
  suffices all : ∀ ps : List Party, (∀ p ∈ ps, p.tables = (empty threshold).run p.past) →
      ∀ p ∈ steps.foldl Step.apply ps, p.tables = (empty threshold).run p.past from
    all _ (by simp [run])
  induction steps with
  | nil => exact fun _ all => all
  | cons step steps ih =>
    intro ps all
    refine ih _ (step.forall_apply (fun p a old => ?_) all)
    simp [Party.perform, old, run]

end Store.Raw

open Store (Raw)

/-! ## After any history -/

/-- Tables and their copies go separate ways, and after any past of their own the index is inverse
to the entries, the count is the number of lists that are there, lists that are there keep their
numbers, others get the next one or a fault that changes nothing, numbers are issued for one list
only, and the list of a number answers until a sweep does not reach it. -/
theorem history_keeps_numbers (threshold : Nat) (steps : List Raw.Step) :
    ∀ p ∈ Raw.parties threshold steps, let r := p.tables
    (∀ l id, r.find? l = some id ↔ r.lookup id = .ok l) ∧
    r.live = {id | ∃ l, r.lookup id = .ok l}.ncard ∧
    (∀ l, l.contains .invalid = true → Raw.register l r = .error .invalidMember r) ∧
    (∀ l id, l.contains .invalid = false → r.find? l = some id → Raw.register l r = .ok id r) ∧
    (∀ l, l.contains .invalid = false → r.find? l = none →
      if r.size ≤ Node.maxNumber then
        ∃ t, Raw.register l r = .ok r.size t ∧ t.size = r.size + 1 ∧ t.live = r.live + 1 ∧
          t.threshold = r.threshold ∧
          ∀ id, t.lookup id = if id = r.size then .ok l else r.lookup id
      else Raw.register l r = .error (.numberTooLarge r.size) r) ∧
    (∀ l fault t, Raw.register l r = .error fault t → t = r) ∧
    (∀ id l, (Raw.empty threshold).Issues id l p.past →
      id < r.size ∧ ∀ l', (Raw.empty threshold).Issues id l' p.past → l' = l) ∧
    (∀ id, r.lookup id = .error (.neverIssued id) ↔
      ∀ l, ¬ (Raw.empty threshold).Issues id l p.past) ∧
    ∀ before l rest id t, p.past = before ++ .register l :: rest →
      Raw.register l ((Raw.empty threshold).run before) = .ok id t →
      (¬ t.Loses id rest → r.lookup id = .ok l) ∧
      (t.Loses id rest → r.lookup id = .error (.reclaimed id)) := by
  intro p hp r
  have made : r = (Raw.empty threshold).run p.past := Raw.tables_eq_run p hp
  have start := Raw.coherent_empty threshold
  have coh : r.Coherent := made ▸ start.run p.past
  refine ⟨?inverse, ?count, fun l => Raw.register_of_invalid, fun l id => Raw.register_of_find?,
    ?next, fun l fault t eq => (Raw.register_eq_error eq).1, ?issued, ?never, ?later⟩
  case inverse =>
    intro l id
    rw [coh.find?_iff, Raw.lookup_eq_ok_iff]
  case count =>
    simp only [Raw.lookup_eq_ok_iff]
    exact coh.live_eq.trans r.count_eq_ncard
  case next =>
    intro l hl new
    rw [Raw.register_of_new hl new]
    by_cases room : r.size ≤ Node.maxNumber
    · rw [if_pos room, if_pos room]
      exact ⟨_, rfl, Raw.size_push, rfl, rfl, fun id => Raw.lookup_push⟩
    · rw [if_neg room, if_neg room]
  case issued =>
    intro id l issues
    refine ⟨made ▸ Raw.lt_size_of_issues start issues, fun l' => Raw.issues_unique start issues⟩
  case never => exact made ▸ Raw.lookup_run_empty threshold p.past
  case later =>
    intro before l rest id t past eq
    rw [made, past, Raw.run_register eq]
    exact Raw.lookup_run_of_register (start.run before) eq rest

namespace Sample

/-- The AND's list is registered, the tables are copied, and the original is swept without roots and
registers the list again. -/
def again : List Raw.Step :=
  [.act 0 (.register [equal, known]), .copy 0, .act 0 (.sweep []),
    .act 0 (.register [equal, known])]

theorem register_pair : Raw.register [equal, known] (Raw.empty Store.defaultThreshold) =
    .ok 0 store.toRaw :=
  (Raw.register_of_new (by decide) (Raw.find?_empty _ _)).trans (if_pos (by decide))

/-- In the original the list has number 1 then, and number 0 is reclaimed for good. In the copy
number 0 still stands for it. -/
theorem registered_again : ∃ p q, Raw.parties Store.defaultThreshold again = [p, q] ∧
    p.tables.lookup 0 = .error (.reclaimed 0) ∧ p.tables.lookup 1 = .ok [equal, known] ∧
    q.tables.lookup 0 = .ok [equal, known] := by
  have unreached : ∀ id, ¬ store.Reaches [] id := by
    intro id reached
    induction reached with
    | root hn _ => simp at hn
    | member _ _ _ _ ih => exact ih
  -- After the sweep the list is not there, so it gets the next number.
  let swept := (store.toRaw.sweep []).2
  have coh : swept.Coherent := store.coherent.sweep []
  have size : swept.size = 1 := store.coherent.size_sweep []
  have new : swept.find? [equal, known] = none := by
    rw [Option.eq_none_iff_forall_ne_some]
    intro id found
    have there := (coh.find?_iff _ _).1 found
    rw [store.coherent.list?_sweep, if_neg (mt Raw.mem_reachable_iff.1 (unreached id))] at there
    cases there
  have second : Raw.register [equal, known] swept = .ok 1 (swept.push [equal, known]) := by
    rw [Raw.register_of_new (by decide) new, size]
    exact if_pos (by decide)
  have whole := history_keeps_numbers Store.defaultThreshold again
  have before : (Raw.empty Store.defaultThreshold).run
      [.register [equal, known], .sweep []] = swept := by
    show ((Raw.perform _ _).sweep []).2 = _
    rw [Raw.perform_of_ok register_pair]
  refine ⟨_, _, rfl, ?_, ?_, ?_⟩
  · obtain ⟨-, -, -, -, -, -, -, -, later⟩ := whole _ List.mem_cons_self
    exact (later [] _ _ 0 _ rfl register_pair).2 (.inl (unreached 0))
  · obtain ⟨-, -, -, -, -, -, -, -, later⟩ := whole _ List.mem_cons_self
    exact (later [_, _] _ [] 1 _ rfl (before ▸ second)).1 id
  · obtain ⟨-, -, -, -, -, -, -, -, later⟩ :=
      whole _ (List.mem_cons_of_mem _ List.mem_cons_self)
    exact (later [] _ [] 0 _ rfl register_pair).1 id

end Sample

end Criteria

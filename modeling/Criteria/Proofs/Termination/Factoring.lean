import Criteria.Proofs.Faults
import Criteria.Proofs.Repetition.Factoring
import Criteria.Proofs.Termination

/-!
# Factoring comes to an end

**Theorem (`Session.Reached.factoring_terminates`).** Without a limit a usable node is factored,
unless a number is asked for that is too large, and never to more leaves. This is not owed to the
counts: no level is too deep and no round too late.

The measure is the number of leaves. A combined node has two members at least, so each of them has
fewer leaves than the node. An overlap is never empty and two ANDs at least contain it
(`Pass.repeats_bestOverlap`). When it is taken out it is there once, so what is put in place of the
OR has fewer leaves; what is left of the ANDs does not have it at all, so neither does the OR of
that, which is factored first (`Pass.Overlapping`). What is pruned in the end only gets smaller.
-/

namespace Criteria

/-- A node that gives way to one that bears fewer leaves. -/
def Store.LosesLeaves (s : Store) (n : Node) (t : Store) (n' : Node) : Prop :=
  t.occurrences n' < s.occurrences n

namespace Pass

open Store (AtMost TotalAtMost)

variable {v : Vocabulary} {w : Work} {k : Connective} {n : Node} {l ms overlap : List Node}
  {p q : Node → Pass Node} {c most rounds rounds' fuel fuel' : Nat}

/-! ## Taking out overlaps -/

theorem of_factorOnce (shrinks : Shrinks v most p p) (hw : w.store.Valid v)
    (hn : w.store.ValidNode v n) (few : w.store.occurrences n ≤ most + 1) {w' : Work} {n' : Node}
    (run : factorOnce p n w = .ok (some n') w') :
    (w'.store.Valid v ∧ w'.store.ValidNode v n' ∧ w'.store.occurrences n' ≤ most + 1) ∧
      w.store.LosesLeaves n w'.store n' := by
  obtain ⟨hw', -, fewer, -⟩ := repeats_factorOnce shrinks few ⟨hn, Nat.le_refl _⟩ hw _ _ run
  obtain ⟨valid, less⟩ := fewer n' rfl
  exact ⟨⟨hw', valid, by omega⟩, less⟩

/-- Each overlap that is taken out leaves fewer leaves, so rounds are never short. -/
theorem descends_factorAll (shrinks : Shrinks v most p p) (hw : w.store.Valid v)
    (hn : w.store.ValidNode v n) (few : w.store.occurrences n ≤ most + 1)
    (hr : w.store.occurrences n ≤ rounds) :
    Descends Store.LosesLeaves (factorOnce p) n w (factorAll p rounds n w) := by
  refine .of_rounds (factorAll p) (·.occurrences)
    (P := fun n w => w.store.Valid v ∧ w.store.ValidNode v n ∧ w.store.occurrences n ≤ most + 1)
    (fun _ => rfl) (fun _ _ => factorAll_succ) ⟨hw, hn, few⟩ ?_ ?_ hr
  · intro n w n' w' ⟨hw, hn, few⟩ run
    obtain ⟨there, less⟩ := of_factorOnce shrinks hw hn few run
    exact ⟨there, less, less⟩
  · intro n w ⟨hw, hn, _⟩ bottom
    have no_or : n.isOr = false := by
      rw [Bool.eq_false_iff, Ne, Node.isOr_iff]
      intro isOr
      have := Store.one_le_occurrences_of_connective? hw hn isOr
      omega
    rw [factorOnce, no_or]
    rfl

/-- Two passes that do the same to nodes that bear few leaves. -/
def Alike (v : Vocabulary) (most : Nat) (p q : Node → Pass Node) : Prop :=
  ∀ {w : Work} {n : Node}, w.store.Valid v → w.store.ValidNode v n →
    w.store.occurrences n ≤ most → p n w = q n w

theorem factorOut_congr (alike : Alike v most p q) (hw : w.store.Valid v)
    (h : w.store.TotalAtMost v (most + 1) ms) (nonempty : overlap ≠ [])
    (ho : ∀ m ∈ overlap, w.store.ValidNode v m) (two : 2 ≤ ms.countP (w.store.yields overlap)) :
    factorOut p ms overlap w = factorOut q ms overlap w := by
  rw [factorOut, factorOut]
  refine (repeats_takeOut_twice h nonempty ho two).bind_congr hw rfl fun r w₁ hw₁ _ taken => ?_
  obtain ⟨hr, one, le⟩ := taken
  have hrests : w₁.store.TotalAtMost v _ r.rests := ⟨hr.rests, Nat.le_refl _⟩
  refine (repeats_combine hrests).bind_congr hw₁ rfl fun inner w₂ hw₂ _ hinner => ?_
  have few := hinner.le
  exact bind_congr_left (alike hw₂ hinner.valid (by omega))

theorem factorOnce_congr (alike : Alike v most p q) (hw : w.store.Valid v)
    (hn : w.store.ValidNode v n) (few : w.store.occurrences n ≤ most + 1) :
    factorOnce p n w = factorOnce q n w := by
  rw [factorOnce, factorOnce]
  split
  · rfl
  next isOr =>
  rw [Bool.not_eq_true', Bool.not_eq_false, Node.isOr_iff] at isOr
  have h : w.store.AtMost v (most + 1) n := ⟨hn, few⟩
  refine repeats_check.bind_congr hw rfl fun _ w₁ hw₁ le₁ _ => ?_
  refine (repeats_members (h.of_extends hw le₁) isOr).bind_congr hw₁ rfl
    fun ms w₂ hw₂ _ read => ?_
  obtain ⟨-, -, total⟩ := read
  refine (repeats_bestOverlap total.valid).bind_congr hw₂ rfl fun out w₃ hw₃ le₃ hout => ?_
  cases out with
  | none => rfl
  | some overlap =>
    obtain ⟨nonempty, ho, two⟩ := hout overlap rfl
    exact bind_congr_left (factorOut_congr alike hw₃ (total.of_extends hw₂ le₃) nonempty ho two)

theorem factorAll_congr (shrinks : Shrinks v most p p) (shrinks' : Shrinks v most q q)
    (alike : Alike v most p q) (hw : w.store.Valid v) (hn : w.store.ValidNode v n)
    (few : w.store.occurrences n ≤ most + 1) (hr : w.store.occurrences n ≤ rounds)
    (hr' : w.store.occurrences n ≤ rounds') :
    factorAll p rounds n w = factorAll q rounds' n w := by
  refine ((descends_factorAll shrinks hw hn few hr).congr (P := fun n w => w.store.Valid v ∧
    w.store.ValidNode v n ∧ w.store.occurrences n ≤ most + 1) ⟨hw, hn, few⟩ ?_ ?_).unique
    (descends_factorAll shrinks' hw hn few hr')
  · intro n w ⟨hw, hn, few⟩
    exact factorOnce_congr alike hw hn few
  · intro n w n' w' ⟨hw, hn, few⟩ run
    exact (of_factorOnce shrinks hw hn few run).1

/-! ## Nodes -/

theorem Alike.mapM (alike : Alike v most p q) (shrinks : Shrinks v most p p)
    (hw : w.store.Valid v) (each : ∀ m ∈ l, w.store.AtMost v most m) :
    l.mapM p w = l.mapM q w := by
  induction l generalizing w with
  | nil => rfl
  | cons m rest ih =>
    have head := each m List.mem_cons_self
    rw [List.mapM_cons, List.mapM_cons]
    refine (shrinks (Nat.le_refl _) head).bind_congr hw (alike hw head.valid head.le)
      fun m' w₁ hw₁ le₁ _ => bind_congr_left (ih hw₁ fun m hm => ?_)
    exact (each m (List.mem_cons_of_mem _ hm)).of_extends hw le₁

/-- **How deep factoring may go makes no difference, if it may go deeper than there are leaves.** -/
theorem alike_factorWithin (hf : most + 1 < fuel) (hf' : most + 1 < fuel') :
    Alike v most (factorWithin fuel) (factorWithin fuel') := by
  induction fuel generalizing fuel' most with
  | zero => omega
  | succ fuel ih =>
    obtain ⟨fuel', rfl⟩ : ∃ i, fuel' = i + 1 := ⟨fuel' - 1, by omega⟩
    intro w n hw hn few
    rw [factorWithin, factorWithin]
    refine repeats_check.bind_congr hw rfl fun _ w₁ hw₁ le₁ _ => ?_
    have h : w₁.store.AtMost v most n := AtMost.of_extends ⟨hn, few⟩ hw le₁
    cases hk : n.connective? with
    | none => rfl
    | some k =>
    have bears := Store.one_le_occurrences_of_connective? hw₁ h.valid hk
    have few := h.le
    obtain ⟨most, rfl⟩ : ∃ i, most = i + 1 := ⟨most - 1, by omega⟩
    have shrinks : Shrinks v most (factorWithin fuel) (factorWithin fuel) :=
      shrinks_factorWithin (by omega) (by omega)
    have shrinks' : Shrinks v most (factorWithin fuel') (factorWithin fuel') :=
      shrinks_factorWithin (by omega) (by omega)
    have alike : Alike v most (factorWithin fuel) (factorWithin fuel') := ih (by omega) (by omega)
    refine (repeats_members h hk).bind_congr hw₁ rfl fun ms w₂ hw₂ _ read => ?_
    obtain ⟨-, hc, total⟩ := read
    have each := total.members hw₂ hc (Nat.le_refl _)
    refine (shrinks.mapM each total).bind_congr hw₂ (alike.mapM shrinks hw₂ each)
      fun ms' w₃ hw₃ _ hms' => ?_
    refine (repeats_combine hms').bind_congr hw₃ rfl fun n' w₄ hw₄ _ h' => ?_
    cases k with
    | and => rfl
    | or =>
      have few' := h'.le
      exact bind_congr_left
        (factorAll_congr shrinks shrinks' alike hw₄ h'.valid few' (by omega) (by omega))

theorem factorWithin_eq_factor (hw : w.store.Valid v) (hn : w.store.ValidNode v n)
    (hf : w.store.occurrences n + 1 < fuel) : factorWithin fuel n w = factor n w := by
  have effort := Store.occurrences_add_lt_effort hw (.refl w.store) hn
  have nodes : 1 ≤ UInt32.size := by decide
  exact alike_factorWithin hf (by omega) hw hn (Nat.le_refl _)

/-- A node is factored to one that bears no more leaves. -/
theorem occurrences_factor_le (hw : w.store.Valid v) (hn : w.store.ValidNode v n) {w' : Work}
    {n' : Node} (run : factor n w = .ok n' w') :
    w'.store.occurrences n' ≤ w.store.occurrences n := by
  have effort := Store.occurrences_add_lt_effort hw (.refl w.store) hn
  have nodes : 1 ≤ UInt32.size := by decide
  have enough : w.store.occurrences n + 1 < w.store.effort n := by omega
  have few : w.store.AtMost v (w.store.occurrences n) n := ⟨hn, Nat.le_refl _⟩
  obtain ⟨-, -, factored, -⟩ :=
    shrinks_factorWithin enough enough (Nat.le_refl _) few hw n' w' run
  exact factored.le

/-- What taking out the best overlap of the members of an OR comes to: two ANDs at least contain it,
and the OR of what is left of them bears fewer leaves, and so does what the OR is replaced by. -/
structure Overlapping (p : Node → Pass Node) (ms overlap : List Node) (w : Work) (c : Nat) :
    Prop where
  two_le : 2 ≤ ms.countP (w.store.yields overlap)
  inner_lt : ∀ r w₁ inner w₂, takeOut overlap ms w = .ok r w₁ →
    combine .or r.rests w₁ = .ok inner w₂ → w₂.store.occurrences inner < c
  factorOut_lt : ∀ n w₁, factorOut p ms overlap w = .ok n w₁ → w₁.store.occurrences n < c

theorem overlapping_of_bestOverlap (shrinks : Shrinks v most p p) (hw : w.store.Valid v)
    (hn : w.store.ValidNode v n) (hk : n.connective? = some .or)
    (hl : w.store.list? n.number = some ms) (few : w.store.occurrences n ≤ most + 1) {w' : Work}
    (found : bestOverlap ms w = .ok (some overlap) w') :
    Overlapping p ms overlap w' (w.store.occurrences n) := by
  have valid : ∀ m ∈ ms, w.store.ValidNode v m := hw.members _ _ hl
  obtain ⟨hw', le, hout, -⟩ := repeats_bestOverlap valid hw _ _ found
  obtain ⟨nonempty, ho, two⟩ := hout overlap rfl
  have total : w'.store.TotalAtMost v (w.store.occurrences n) ms := by
    refine ⟨fun m hm => (valid m hm).mono le, ?_⟩
    rw [Store.total_of_extends hw le valid, Store.occurrences_combined hw hk hl]
  have bears := Store.one_le_occurrences_of_connective? hw hn hk
  refine ⟨two, fun r w₁ inner w₂ taken joined => ?_, fun n' w₁ factored => ?_⟩
  · obtain ⟨hw₁, -, ⟨hr, one, less⟩, -⟩ := repeats_takeOut_twice total nonempty ho two hw' _ _ taken
    have hrests : w₁.store.TotalAtMost v _ r.rests := ⟨hr.rests, Nat.le_refl _⟩
    obtain ⟨-, -, hinner, -⟩ := repeats_combine hrests hw₁ _ _ joined
    have := hinner.le
    omega
  · obtain ⟨c, count⟩ : ∃ i, w.store.occurrences n = i + 1 := ⟨w.store.occurrences n - 1, by omega⟩
    rw [count] at total few ⊢
    obtain ⟨-, -, hn', -⟩ :=
      repeats_factorOut shrinks (by omega) total nonempty ho two hw' _ _ factored
    exact Nat.lt_succ_of_le hn'.le

end Pass

/-! ## In sessions -/

/-- Factoring a usable node gives an answer, unless there is a limit or all numbers are issued, and
the answer bears no more leaves than the node does. In whatever state, levels and rounds are never
short, each overlap that is taken out leaves fewer leaves, and so it does in what is worked on
next. -/
theorem Session.Reached.factoring_terminates {x : Session} (h : x.Reached) {n : Node}
    (hn : x.Usable n) :
    (∀ used, (∃ n' g budget, Forest.run (Pass.factor n) (x.forest, ⟨.unlimited, used⟩) =
        .ok n' (g, budget)) ∨
      ∃ id g budget, Forest.run (Pass.factor n) (x.forest, ⟨.unlimited, used⟩) =
        .error (.fault (.numberTooLarge id)) (g, budget) ∧ Node.maxNumber < g.store.size) ∧
    (∀ budget n' g budget', Forest.run (Pass.factor n) (x.forest, budget) =
        .ok n' (g, budget') → g.store.occurrences n' ≤ x.forest.store.occurrences n) ∧
    ∀ (w : Work) (m : Node) (fuel : Nat), w.store.Valid x.forest.vocabulary →
      w.store.ValidNode x.forest.vocabulary m → w.store.occurrences m + 1 < fuel →
      let inner := Pass.factorWithin fuel
      Pass.factorWithin (fuel + 1) m w = Pass.factor m w ∧
      Pass.Descends Store.LosesLeaves (Pass.factorOnce inner) m w
        (Pass.factorAll inner fuel m w) ∧
      ∀ ms overlap w', m.isOr = true → w.store.list? m.number = some ms →
        Pass.bestOverlap ms w = .ok (some overlap) w' →
        Pass.Overlapping inner ms overlap w' (w.store.occurrences m) := by
  have sound := h.sound
  have valid := sound.validNode hn
  refine ⟨fun used => ?_, fun budget n' g budget' run => ?_, fun w m fuel hw hm few => ?_⟩
  · cases run : Forest.run (Pass.factor n) (x.forest, ⟨.unlimited, used⟩) with
    | ok n' out => exact .inl ⟨n', out.1, out.2, rfl⟩
    | error failure out =>
      have inTime := Forest.ne_overrun_of_unlimited (Pass.composed_factor n) run
      obtain ⟨id, rfl, full⟩ := (h.expected_of_rewriting hn .factor run).exhausted inTime
      exact .inr ⟨id, out.1, out.2, rfl, full⟩
  · exact Pass.occurrences_factor_le (w := ⟨x.forest.store, budget⟩) sound.forest.store valid
      (Forest.pass_eq_ok_of_run run)
  · have shrinks : Pass.Shrinks x.forest.vocabulary (w.store.occurrences m)
        (Pass.factorWithin fuel) (Pass.factorWithin fuel) := Pass.shrinks_factorWithin few few
    have small : w.store.occurrences m ≤ w.store.occurrences m + 1 := Nat.le_succ _
    refine ⟨Pass.factorWithin_eq_factor hw hm (by omega),
      Pass.descends_factorAll shrinks hw hm small (by omega), fun ms overlap w' isOr hl found => ?_⟩
    exact Pass.overlapping_of_bestOverlap shrinks hw hm (Node.isOr_iff.1 isOr) hl small found

namespace Sample

/-- The node of `(a = x AND a IS NOT UNKNOWN) OR (a = x AND (a = x OR a IS NOT UNKNOWN))`. -/
def shared : Node := .combined .or 2

/-- The store with the list of the two ANDs besides. -/
def sharedStore : Store := deepStore.push [both, nested] (Store.find?_eq_none (by decide))

/-- The session in which the OR of the two ANDs was built too. -/
def sharing : Session :=
  ⟨{ deep.forest with store := sharedStore }, [shared], [nested, either, both]⟩

theorem reached_sharing : sharing.Reached := by
  have usable : ∀ m ∈ [both, nested], deep.Usable m := by
    intro m hm
    rcases List.mem_pair.1 hm with rfl | rfl
    · exact usable_deep.2.2
    · exact usable_deep.2.1
  have joined : deepStore.combine .or [both, nested] = .ok (shared, sharedStore) :=
    Store.combine_of_new (by rfl) (by decide) (by decide) (by decide)
  exact reached_deep.combine usable joined

/-- Both ANDs contain `a = x`, and taking it out of the OR leaves fewer leaves than five. -/
theorem shared_terminates :
    (∀ budget n' g budget', Forest.run (Pass.factor shared) (sharing.forest, budget) =
      .ok n' (g, budget') → g.store.occurrences n' ≤ 5) ∧
    let inner := Pass.factorWithin 7
    let work : Work := ⟨sharedStore, .fresh .unlimited⟩
    Pass.Descends Store.LosesLeaves (Pass.factorOnce inner) shared work
      (Pass.factorAll inner 7 shared work) ∧
    Pass.bestOverlap [both, nested] work = .ok (some [equal]) ⟨sharedStore, ⟨.unlimited, 2⟩⟩ ∧
    Pass.Overlapping inner [both, nested] [equal] ⟨sharedStore, ⟨.unlimited, 2⟩⟩ 5 := by
  have usable : sharing.Usable shared :=
    .combined (by decide) rfl (.inl (List.mem_singleton_self _))
  have leaves : sharedStore.occurrences shared = 5 := by decide
  have found : Pass.bestOverlap [both, nested] ⟨sharedStore, .fresh .unlimited⟩ =
      .ok (some [equal]) ⟨sharedStore, ⟨.unlimited, 2⟩⟩ := rfl
  obtain ⟨-, fewer, loops⟩ := reached_sharing.factoring_terminates usable
  obtain ⟨-, rounds, overlaps⟩ := loops ⟨sharedStore, .fresh .unlimited⟩ shared 7
    reached_sharing.sound.forest.store (reached_sharing.sound.validNode usable) (by decide)
  have overlapping := overlaps _ _ _ (by decide) rfl found
  simp only [leaves] at overlapping
  exact ⟨fun _ _ _ _ run => leaves ▸ fewer _ _ _ _ run, rounds, found, overlapping⟩

end Sample

end Criteria

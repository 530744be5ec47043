import Criteria.Proofs.Faults
import Criteria.Proofs.Irreducible.Pruning
import Criteria.Proofs.Termination

/-!
# Pruning comes to an end

**Theorem (`Session.Reached.pruning_terminates`).** Without a limit a usable node is pruned under
any usable assumptions, unless a number is asked for that is too large, and never to more leaves.
This is not owed to the counts: no level is too deep and no round too late.

Three things are nested here. Following advice goes round until there is none, rounds of pruning
members go on until one changes nothing, and each round goes a level deeper. The measure of all
three is what a node bears if comparisons bear two and unknown checks one (`Node.heft`). Leaves
alone would not do: two comparisons with an argument may be replaced by the checks that the two
arguments are known, and these are two leaves again. Members bear less than the node they are
members of, and what advice or a round changes bears less than before.

So a round never comes to a node that was there before, unless it is the one that the round began
with: all the earlier ones are heavier. Keeping track of the nodes that were there is only of use
for seeing that nothing has changed (`Pass.descends_repeatStep`).
-/

namespace Criteria

/-- A node that gives way to a lighter one. -/
def Store.Lightens (s : Store) (n : Node) (t : Store) (n' : Node) : Prop :=
  t.load Node.heft n' < s.load Node.heft n

namespace Pass

open Node (heft one_le_heft)
open Store (Inner)

variable {v : Vocabulary} {w : Work} {k : Connective} {n m : Node} {l known : List Node}
  {p q : Node → List Node → Pass Node} {most rounds rounds' fuel fuel' : Nat}

theorem connective?_eq_none_of_load (hw : w.store.Valid v) (hn : w.store.ValidNode v n)
    (h : w.store.load heft n = 0) : n.connective? = none := by
  cases hk : n.connective? with
  | none => rfl
  | some k =>
    have := Store.one_le_load one_le_heft hw hn
      (Node.not_isConstant_of_isCombined (Node.isCombined_of_connective? hk))
    omega

/-! ## Following advice -/

/-- Each time that advice is followed the node gets lighter, so rounds are never short. -/
theorem descends_applyAdvice (hw : w.store.Valid v) (hn : w.store.ValidNode v n)
    (few : w.store.load heft n ≤ rounds) :
    Descends Store.Sheds (followOnce k) n w (applyAdvice k rounds n w) := by
  refine .of_rounds (applyAdvice k) (·.load heft)
    (P := fun n w => w.store.Valid v ∧ w.store.ValidNode v n)
    (fun _ => rfl) (fun _ _ => applyAdvice_succ) ⟨hw, hn⟩ ?_ ?_ few
  · intro n w n' w' ⟨hw, hn⟩ run
    obtain ⟨hw', -, -, sheds⟩ := (ensures_followOnce hn).of_ok hw run
    obtain ⟨valid, sheds⟩ := sheds n' rfl
    exact ⟨⟨hw', valid⟩, sheds, sheds.lighter⟩
  · intro n w ⟨hw, hn⟩ bottom
    rw [followOnce, if_pos (by simp [connective?_eq_none_of_load hw hn bottom])]

theorem applyAdvice_congr (hw : w.store.Valid v) (hn : w.store.ValidNode v n)
    (few : w.store.load heft n ≤ rounds) (few' : w.store.load heft n ≤ rounds') :
    applyAdvice k rounds n w = applyAdvice k rounds' n w :=
  (descends_applyAdvice hw hn few).unique (descends_applyAdvice hw hn few')

/-! ## Rounds -/

/-- One round of a step on combined nodes; nothing if it does not change the node. -/
def roundOf (step : Connective → Node → Pass Node) (n : Node) : Pass (Option Node) :=
  match n.connective? with
  | none => return none
  | some k => do
    check
    let n' ← step k n
    return if n' = n then none else some n'

section Rounds

variable {less : Store → Node → Store → Node → Prop} {step step' : Connective → Node → Pass Node}
  {seen : List Node} {c : Nat}

/-- A loop of rounds that stops when a node comes up that was there before. -/
theorem repeatStep_succ (here : n ∈ seen) : repeatStep step seen (rounds + 1) n = (do
    match ← roundOf step n with
    | none => return n
    | some n' =>
      if seen.contains n' then return n'
      else repeatStep step (n' :: seen) rounds n') := by
  rw [repeatStep, roundOf]
  cases n.connective? with
  | none => rw [pure_bind]
  | some k =>
    simp only [bind_assoc, pure_bind]
    refine bind_congr fun _ => bind_congr fun n' => ?_
    by_cases eq : n' = n
    · subst eq
      simp [here]
    · simp only [if_neg eq]

theorem ensures_check_store :
    (growing v).Ensures check w fun _ w' => w'.store = w.store := by
  intro hw
  unfold check
  cases w.budget.check with
  | ok budget => exact ⟨hw, .refl _, rfl⟩
  | error o => exact ⟨hw, .refl _, trivial⟩

/-- A step that leaves a node as it is or gives a lesser one, if the node bears `c` at most. -/
def Declines (v : Vocabulary) (c : Nat) (less : Store → Node → Store → Node → Prop)
    (step : Connective → Node → Pass Node) : Prop :=
  ∀ {w : Work} {n : Node} {k : Connective}, w.store.ValidNode v n → n.connective? = some k →
    w.store.load heft n ≤ c → (growing v).Ensures (step k n) w fun n' w' =>
      w'.store.ValidNode v n' ∧ (n' = n ∨ less w.store n w'.store n')

theorem ensures_roundOf (declines : Declines v c less step) (hn : w.store.ValidNode v n)
    (few : w.store.load heft n ≤ c) :
    (growing v).Ensures (roundOf step n) w fun out w' =>
      ∀ n' ∈ out, w'.store.ValidNode v n' ∧ less w.store n w'.store n' := by
  rw [roundOf]
  cases hk : n.connective? with
  | none => exact .pure fun _ => by simp
  | some k =>
    refine ensures_check_store.bind fun _ w₁ _ _ same => ?_
    rw [← same] at hn few ⊢
    refine (declines hn hk few).bind fun n' w₂ _ _ h => .pure fun _ => ?_
    split
    · simp
    · next ne =>
      intro n'' hn''
      cases hn''
      exact ⟨h.1, h.2.resolve_left ne⟩

/-- A node that comes up again is the one that the round began with: the nodes that were there
before that are heavier. So a loop that stops there goes on until a round changes nothing. -/
theorem descends_repeatStep
    (lighter : ∀ {s n t n'}, less s n t n' → s.Lightens n t n') (declines : Declines v c less step)
    (hw : w.store.Valid v) (hn : w.store.ValidNode v n) (few : w.store.load heft n ≤ c)
    (hr : w.store.load heft n ≤ rounds) (here : n ∈ seen)
    (heavier : ∀ x ∈ seen, w.store.ValidNode v x ∧
      (x = n ∨ w.store.load heft n < w.store.load heft x)) :
    Descends less (roundOf step) n w (repeatStep step seen rounds n w) := by
  induction rounds generalizing w n seen with
  | zero =>
    have none := connective?_eq_none_of_load hw hn (Nat.le_zero.1 hr)
    exact .done (by rw [roundOf, none]; rfl)
  | succ rounds ih =>
    rw [repeatStep_succ here]
    cases run : roundOf step n w with
    | error failure w' =>
      rw [bind_eq_of_error run]
      exact .fails run
    | ok out w' =>
      rw [bind_eq_of_ok run]
      obtain ⟨hw', le, lesser⟩ := (ensures_roundOf declines hn few).of_ok hw run
      cases out with
      | none => exact .done run
      | some n' =>
        obtain ⟨valid, lesser⟩ := lesser n' rfl
        have less_load : w'.store.load heft n' < w.store.load heft n := lighter lesser
        have heavier : ∀ x ∈ seen, w'.store.ValidNode v x ∧
            w'.store.load heft n' < w'.store.load heft x := by
          intro x hx
          obtain ⟨valid', more⟩ := heavier x hx
          refine ⟨valid'.mono le, ?_⟩
          rw [Store.load_of_extends hw le valid']
          rcases more with rfl | more
          · exact less_load
          · omega
        have new : ¬ seen.contains n' = true := fun again =>
          Nat.lt_irrefl _ (heavier n' (List.contains_iff_mem.1 again)).2
        simp only [if_neg new]
        refine .next run lesser (ih hw' valid (by omega) (by omega) List.mem_cons_self ?_)
        exact List.forall_mem_cons.2
          ⟨⟨valid, .inl rfl⟩, fun x hx => ⟨(heavier x hx).1, .inr (heavier x hx).2⟩⟩

end Rounds

/-! ## Members -/

/-- Two passes that do the same to nodes that bear `most` at most. -/
def Agree (v : Vocabulary) (most : Nat) (p q : Node → List Node → Pass Node) : Prop :=
  ∀ {w : Work} {n : Node} {known : List Node}, w.store.Valid v → w.store.ValidNode v n →
    w.store.load heft n ≤ most → p n known w = q n known w

theorem pruneFrom_congr (hp : Reduces v most p) (agree : Agree v most p q)
    (hw : w.store.Valid v) {pending : List Pending} (hm : w.store.Inner v most m)
    (each : ∀ x ∈ pending, w.store.Inner v most x.member) :
    pruneFrom p k known m pending w = pruneFrom q k known m pending w := by
  induction pending generalizing w m known with
  | nil =>
    rw [pruneFrom, pruneFrom]
    exact bind_congr_left (agree hw hm.valid hm.le)
  | cons next rest ih =>
    rw [pruneFrom, pruneFrom]
    refine (hp hm.valid hm.le).bind_congr hw (agree hw hm.valid hm.le)
      fun m' w₁ hw₁ le₁ pruned => ?_
    split
    · rfl
    refine ensures_check_store.bind_congr hw₁ rfl fun _ w₂ hw₂ le₂ _ => ?_
    refine (ensures_premises (pruned.valid.mono le₂)).bind_congr hw₂ rfl fun x w₃ hw₃ le₃ _ => ?_
    have le : w.store.Extends w₃.store := le₁.trans (le₂.trans le₃)
    have each : ∀ x ∈ next :: rest, w₃.store.Inner v most x.member := fun x hx =>
      (each x hx).of_extends hw le
    exact bind_congr_left (ih hw₃ (each next List.mem_cons_self)
      fun x hx => each x (List.mem_cons_of_mem _ hx))

theorem pruneMembers_congr (hp : Reduces v most p) (agree : Agree v most p q)
    (hw : w.store.Valid v) (each : ∀ x ∈ l, w.store.Inner v most x) :
    pruneMembers p k known l w = pruneMembers q k known l w := by
  cases l with
  | nil => rfl
  | cons m rest =>
    rw [pruneMembers, pruneMembers]
    refine ensures_check_store.bind_congr hw rfl fun _ w₁ hw₁ le₁ _ => ?_
    have each₁ : ∀ x ∈ m :: rest, w₁.store.Inner v most x := fun x hx =>
      (each x hx).of_extends hw le₁
    have later : ∀ x ∈ rest, w₁.store.ValidNode v x ∧ x.isConstant = false := fun x hx => by
      have inner := each₁ x (List.mem_cons_of_mem m hx)
      exact ⟨inner.valid, inner.inconstant⟩
    refine (ensures_pending later).bind_congr hw₁ rfl fun pending w₂ hw₂ le₂ h => ?_
    have each₂ : ∀ x ∈ m :: rest, w₂.store.Inner v most x := fun x hx =>
      (each₁ x hx).of_extends hw₁ le₂
    refine pruneFrom_congr hp agree hw₂ (each₂ m List.mem_cons_self) fun x hx => ?_
    exact each₂ _ (List.mem_cons_of_mem m (h.1 ▸ List.mem_map_of_mem hx))

theorem rejoin_congr (hw : w.store.Valid v) (valid : ∀ x ∈ l, w.store.ValidNode v x)
    (few : w.store.loads heft l ≤ rounds) (few' : w.store.loads heft l ≤ rounds') :
    rejoin k rounds (some l) w = rejoin k rounds' (some l) w := by
  rw [rejoin, rejoin]
  refine (ensures_build (Store.ensures_combine_load (f := heft) valid)).lenient.bind_congr hw rfl
    fun n w₁ hw₁ _ joined => ?_
  exact applyAdvice_congr hw₁ joined.1 (joined.2.trans few) (joined.2.trans few')

/-- What is done in one round depends neither on how advice is counted nor on how levels are. -/
theorem pruneOnce_congr (hp : Reduces v most p) (agree : Agree v most p q)
    (hw : w.store.Valid v) (hn : w.store.ValidNode v n) (hk : n.connective? = some k)
    (few : w.store.load heft n ≤ most + 1) (hr : w.store.load heft n ≤ rounds)
    (hr' : w.store.load heft n ≤ rounds') :
    pruneOnce p rounds known k n w = pruneOnce q rounds' known k n w := by
  refine (ensures_members_list hn hk).bind_congr hw rfl fun ms w₁ _ _ read => ?_
  obtain ⟨rfl, hl, hc, inner, whole⟩ := read
  have each : ∀ x ∈ ms, w₁.store.Inner v most x := fun x hx => by
    have := Store.load_lt_loads one_le_heft hw hc (hw.members _ _ hl) hx
    exact ⟨(inner x hx).1, (inner x hx).2, by omega⟩
  have rejoined : ∀ {l : List Node}, l.Sublist ms →
      (pruneMembers p k known l >>= rejoin k rounds) w₁ =
        (pruneMembers q k known l >>= rejoin k rounds') w₁ := by
    intro l sub
    have each : ∀ x ∈ l, w₁.store.Inner v most x := fun x hx => each x (sub.mem hx)
    refine (reduces_pruneMembers hp each).bind_congr hw (pruneMembers_congr hp agree hw each)
      fun out w₂ hw₂ le₂ hout => ?_
    cases out with
    | none => rfl
    | some l' =>
      have pruned := hout l' rfl
      have fewer : w₂.store.loads heft l' ≤ w₁.store.load heft n := by
        have := Store.loads_le_of_sublist (s := w₁.store) (f := heft) sub
        rcases pruned.lighter with ⟨rfl, -⟩ | lighter
        · rw [Store.loads_of_extends hw le₂ fun x hx => (each x hx).valid]
          omega
        · omega
      exact rejoin_congr hw₂ pruned.valid (fewer.trans hr) (fewer.trans hr')
  cases k with
  | and => exact rejoined (.refl ms)
  | or =>
    have opened : (growing v).Ensures (read (openMembers · known ms)) w₁ fun out w' =>
        w' = w₁ ∧ ∀ l ∈ out, l.Sublist ms :=
      ensures_ask fun _ out hout => ⟨rfl, fun l hl => by
        cases hl
        exact sublist_of_openMembers hout⟩
    refine opened.bind_congr hw rfl fun out w₂ _ _ h => ?_
    obtain ⟨rfl, sub⟩ := h
    cases out with
    | none => rfl
    | some l => exact rejoined (sub l rfl)

/-! ## Nodes -/

/-- A round of pruning members as a step of a loop. -/
theorem declines_pruneOnce {most : Nat} (hp : Reduces v most p) (hr : most + 1 ≤ rounds) :
    Declines v (most + 1) Store.Lightens (pruneOnce p rounds known) :=
  fun hn hk few => (reduces_pruneOnce hp hn hk few (few.trans hr)).mono fun _ _ _ _ h =>
    ⟨h.valid, h.lighter.imp_left And.left⟩

theorem descends_lighter (hp : Reduces v most p) (hr : most + 1 ≤ rounds) (hw : w.store.Valid v)
    (hn : w.store.ValidNode v n) (few : w.store.load heft n ≤ most + 1) :
    Descends Store.Lightens (roundOf (pruneOnce p rounds known)) n w
      (repeatStep (pruneOnce p rounds known) [n] rounds n w) :=
  descends_repeatStep id (declines_pruneOnce hp hr) hw hn few (few.trans hr)
    (List.mem_singleton_self n) (List.forall_mem_singleton.2 ⟨hn, .inl rfl⟩)

/-- Rounds come to the same, however many there may be and however deep each may go. -/
theorem repeatStep_congr (hp : Reduces v most p) (hq : Reduces v most q) (agree : Agree v most p q)
    (hw : w.store.Valid v) (hn : w.store.ValidNode v n) (few : w.store.load heft n ≤ most + 1)
    (hr : most + 1 ≤ rounds) (hr' : most + 1 ≤ rounds') :
    repeatStep (pruneOnce p rounds known) [n] rounds n w =
      repeatStep (pruneOnce q rounds' known) [n] rounds' n w := by
  refine ((descends_lighter hp hr hw hn few).congr (P := fun n w => w.store.Valid v ∧
    w.store.ValidNode v n ∧ w.store.load heft n ≤ most + 1) ⟨hw, hn, few⟩ ?_ ?_).unique
    (descends_lighter hq hr' hw hn few)
  · intro n w ⟨hw, hn, few⟩
    rw [roundOf, roundOf]
    cases hk : n.connective? with
    | none => rfl
    | some k =>
      refine ensures_check_store.bind_congr hw rfl fun _ w₁ hw₁ _ same => ?_
      rw [← same] at hn few
      exact bind_congr_left
        (pruneOnce_congr hp agree hw₁ hn hk few (few.trans hr) (few.trans hr'))
  · intro n w n' w' ⟨hw, hn, few⟩ run
    obtain ⟨hw', -, lesser⟩ :=
      (ensures_roundOf (declines_pruneOnce hp hr) hn few).of_ok hw run
    obtain ⟨valid, lighter⟩ := lesser n' rfl
    exact ⟨hw', valid, (Nat.le_of_lt lighter).trans few⟩

/-- **How deep pruning may go makes no difference, if it may go as deep as the node is heavy.** -/
theorem agree_pruneWithin (hf : most < fuel) (hf' : most < fuel') :
    Agree v most (pruneWithin fuel) (pruneWithin fuel') := by
  induction fuel generalizing fuel' most with
  | zero => omega
  | succ fuel ih =>
    obtain ⟨fuel', rfl⟩ : ∃ i, fuel' = i + 1 := ⟨fuel' - 1, by omega⟩
    intro w n known hw hn few
    rw [pruneWithin, pruneWithin]
    refine ensures_check_store.bind_congr hw rfl fun _ w₁ hw₁ _ same => ?_
    rw [← same] at hn few
    split
    · rfl
    next inconstant =>
    have bears := Store.one_le_load one_le_heft hw₁ hn (Bool.eq_false_iff.2 inconstant)
    refine ensures_settle_silent.bind_congr hw₁ rfl fun out w₂ hw₂ le₂ _ => ?_
    cases out with
    | some constant => rfl
    | none =>
    rw [← Store.load_of_extends (f := heft) hw₁ le₂ hn] at few bears
    obtain ⟨most, rfl⟩ : ∃ i, most = i + 1 := ⟨most - 1, by omega⟩
    have reduces : Reduces v most (pruneWithin fuel) := reduces_pruneWithin (by omega)
    have reduces' : Reduces v most (pruneWithin fuel') := reduces_pruneWithin (by omega)
    exact bind_congr_left (repeatStep_congr reduces reduces' (ih (by omega) (by omega)) hw₂
      (hn.mono le₂) few (by omega) (by omega))

theorem pruneWithin_eq_pruneUnder (hw : w.store.Valid v) (hn : w.store.ValidNode v n)
    (hf : w.store.load heft n < fuel) : pruneWithin fuel n known w = pruneUnder n known w :=
  agree_pruneWithin hf (Store.heft_lt_effort hw hn) hw hn (Nat.le_refl _)

/-- In a round a node stays the same, or gives way to a lighter one that bears no more leaves. -/
theorem declines_pruneOnce_sheds :
    Declines v fuel Store.Sheds (pruneOnce (pruneWithin fuel) fuel known) := by
  intro w n k hn hk few
  refine .assuming fun hw => ?_
  have bears := Store.one_le_load one_le_heft hw hn
    (Node.not_isConstant_of_isCombined (Node.isCombined_of_connective? hk))
  obtain ⟨most, rfl⟩ : ∃ i, fuel = i + 1 := ⟨fuel - 1, by omega⟩
  -- What is known of leaves is known of passes that may go deeper than there are nodes.
  let deep := w.store.occurrences n + UInt32.size + most + 1
  have reduces : Reduces v most (pruneWithin (most + 1)) := reduces_pruneWithin (by omega)
  have reduces' : Reduces v most (pruneWithin deep) := reduces_pruneWithin (by omega)
  have agree : Agree v most (pruneWithin (most + 1)) (pruneWithin deep) :=
    agree_pruneWithin (by omega) (by omega)
  have nodes : 1 ≤ UInt32.size := by decide
  have leaves : w.store.AtMost v (w.store.occurrences n) n := ⟨hn, Nat.le_refl _⟩
  have shrinks : ∀ known, Shrinks v (w.store.occurrences n) (pruneWithin deep · known)
      (pruneWithin deep · known) := fun known => shrinks_pruneWithin (by omega) (by omega) known
  have rounds : w.store.occurrences n < deep := by omega
  have round : (growing v).Ensures (pruneOnce (pruneWithin deep) deep known k n) w _ :=
    ensures_of_repeats (reduces_pruneOnce reduces' hn hk few (by omega))
      (repeats_pruneOnce shrinks leaves hk (by omega) rounds rounds)
  refine (round.mono fun n' w' _ _ h => ⟨h.1.valid, ?_⟩).of_run_eq
    (pruneOnce_congr reduces agree hw hn hk few few (by omega))
  exact h.1.lighter.imp And.left fun lighter => ⟨lighter, h.2.le⟩

/-- The rounds on a node go down until one changes nothing. -/
theorem descends_pruneOnce (hw : w.store.Valid v) (hn : w.store.ValidNode v n)
    (few : w.store.load heft n ≤ fuel) :
    Descends Store.Sheds (roundOf (pruneOnce (pruneWithin fuel) fuel known)) n w
      (repeatStep (pruneOnce (pruneWithin fuel) fuel known) [n] fuel n w) :=
  descends_repeatStep (fun sheds => sheds.lighter) declines_pruneOnce_sheds hw hn few few
    (List.mem_singleton_self n) (List.forall_mem_singleton.2 ⟨hn, .inl rfl⟩)

/-- Under whatever assumptions, a node is pruned to one that bears no more leaves. -/
theorem occurrences_pruneUnder_le (hw : w.store.Valid v) (hn : w.store.ValidNode v n) {w' : Work}
    {n' : Node} (run : pruneUnder n known w = .ok n' w') :
    w'.store.occurrences n' ≤ w.store.occurrences n := by
  have enough := Store.occurrences_add_lt_effort hw (.refl w.store) hn
  have few : w.store.AtMost v (w.store.occurrences n) n := ⟨hn, Nat.le_refl _⟩
  obtain ⟨-, -, pruned, -⟩ :=
    shrinks_pruneWithin enough enough known (Nat.le_refl _) few hw n' w' run
  exact pruned.le

end Pass

/-! ## In sessions -/

/-- Pruning a usable node under usable assumptions gives an answer, unless there is a limit or all
numbers are issued, and the answer bears no more leaves than the node does. In whatever state,
levels and rounds are never short, and rounds and advice go from each node to a lighter one. -/
theorem Session.Reached.pruning_terminates {x : Session} (h : x.Reached) {n : Node}
    {known : List Node} (hn : x.Usable n) (hk : ∀ a ∈ known, x.Usable a) :
    (∀ used, (∃ n' g budget, Forest.run (Pass.pruneUnder n known)
        (x.forest, ⟨.unlimited, used⟩) = .ok n' (g, budget)) ∨
      ∃ id g budget, Forest.run (Pass.pruneUnder n known) (x.forest, ⟨.unlimited, used⟩) =
        .error (.fault (.numberTooLarge id)) (g, budget) ∧ Node.maxNumber < g.store.size) ∧
    (∀ budget n' g budget', Forest.run (Pass.pruneUnder n known) (x.forest, budget) =
        .ok n' (g, budget') → g.store.occurrences n' ≤ x.forest.store.occurrences n) ∧
    ∀ (w : Work) (m : Node) (known : List Node) (fuel : Nat),
      w.store.Valid x.forest.vocabulary → w.store.ValidNode x.forest.vocabulary m →
      w.store.load Node.heft m ≤ fuel →
      let round := Pass.pruneOnce (Pass.pruneWithin fuel) fuel known
      Pass.pruneWithin (fuel + 1) m known w = Pass.pruneUnder m known w ∧
      Pass.Descends Store.Sheds (Pass.roundOf round) m w (Pass.repeatStep round [m] fuel m w) ∧
      ∀ k, Pass.Descends Store.Sheds (Pass.followOnce k) m w (Pass.applyAdvice k fuel m w) := by
  have sound := h.sound
  have valid := sound.validNode hn
  refine ⟨fun used => ?_, fun budget n' g budget' run => ?_, fun w m known fuel hw hm few => ?_⟩
  · cases run : Forest.run (Pass.pruneUnder n known) (x.forest, ⟨.unlimited, used⟩) with
    | ok n' out => exact .inl ⟨n', out.1, out.2, rfl⟩
    | error failure out =>
      have inTime := Forest.ne_overrun_of_unlimited (Pass.composed_pruneUnder n known) run
      obtain ⟨id, rfl, full⟩ := (h.expected_of_pruneUnder hn hk run).exhausted inTime
      exact .inr ⟨id, out.1, out.2, rfl, full⟩
  · exact Pass.occurrences_pruneUnder_le (w := ⟨x.forest.store, budget⟩) sound.forest.store valid
      (Forest.pass_eq_ok_of_run run)
  · exact ⟨Pass.pruneWithin_eq_pruneUnder hw hm (Nat.lt_succ_of_le few),
      Pass.descends_pruneOnce hw hm few, fun k => Pass.descends_applyAdvice hw hm few⟩

/-- Once `a` is known to be known, `a = x AND a IS NOT UNKNOWN` becomes `a = x`. Three rounds are
enough for its two members, one of which is a known check. -/
theorem Sample.both_terminates :
    Forest.run (Pass.pruneUnder both [known]) (session.forest, ⟨.unlimited, 0⟩) =
      .ok equal (session.forest, ⟨.unlimited, 6⟩) ∧
    session.forest.store.occurrences equal ≤ session.forest.store.occurrences both ∧
    store.load Node.heft both = 3 ∧
    let round := Pass.pruneOnce (Pass.pruneWithin 3) 3 [known]
    let work : Work := ⟨store, .fresh .unlimited⟩
    Pass.Descends Store.Sheds (Pass.roundOf round) both work
      (Pass.repeatStep round [both] 3 both work) := by
  have run : Forest.run (Pass.pruneUnder both [known]) (session.forest, ⟨.unlimited, 0⟩) =
      .ok equal (session.forest, ⟨.unlimited, 6⟩) := rfl
  have heft : store.load Node.heft both = 3 := by decide
  obtain ⟨-, fewer, loops⟩ := reached.pruning_terminates usable_both
    (List.forall_mem_singleton.2 usable_known)
  obtain ⟨-, rounds, -⟩ := loops ⟨store, .fresh .unlimited⟩ both [known] 3
    reached.sound.forest.store (reached.sound.validNode usable_both) (Nat.le_of_eq heft)
  exact ⟨run, fewer _ _ _ _ run, heft, rounds⟩

end Criteria

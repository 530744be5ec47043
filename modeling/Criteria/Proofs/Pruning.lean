import Criteria.Pruning
import Criteria.Proofs.Entailment

/-!
# Pruning is sound

**Theorem (`ensures_pruneUnder`).** Where its assumptions hold, a pruned node holds exactly where
the node did.

A pass takes its steps one after the other, and what one member may assume depends on what became of
those before it. The condition `c` of `Means` carries the assumptions through: to prune a member
among others is to prune it under the further condition that the others make no difference
(`ensures_pruneFrom`). What comes out agrees with the member wherever that matters. If another
member decides the whole, so it does next to the pruned one; and if none does, the condition holds.
Since members after the pruned one see it as it is then, and not as it was, no two of them can
remove each other.
-/

namespace Criteria

namespace Pass

open Store (Means Joins)

variable {v : Vocabulary} {r : Record} {c : Prop} {w : Work} {k : Connective} {n m : Node}
  {l : List Node} {assumptions : List Node} {b : Bool} {prune : Node → List Node → Pass Node}

/-! ## Members in turn -/

/-- Pruning under assumptions keeps the value of a node as far as they go. -/
def Prunes (v : Vocabulary) (r : Record) (prune : Node → List Node → Pass Node) : Prop :=
  ∀ {c : Prop} {w : Work} {n : Node} {assumptions : List Node} {b : Bool},
    Means v r c w.store n b → (∀ a ∈ assumptions, Means v r c w.store a true) →
    (Work.growth v).Ensures (prune n assumptions) w fun n' w => Means v r c w.store n' b

/-- What some members became: no members if the whole is decided. -/
def Outcome (v : Vocabulary) (r : Record) (c : Prop) (s : Store) (k : Connective) (b : Bool) :
    Option (List Node) → Prop
  | none => c → b = !k.unit
  | some l => Joins v r c s k l b

theorem Outcome.congr {s : Store} {b' : Bool} {out : Option (List Node)}
    (h : Outcome v r c s k b out) (eq : c → b = b') : Outcome v r c s k b' out := by
  cases out with
  | none => exact fun hc => (eq hc).symm.trans (h hc)
  | some l => exact Joins.congr h eq

/-- A pruned member before what became of those after it, which were pruned as if it made no
difference, as it was as if they made none. -/
theorem Outcome.cons {s : Store} {b b' others : Bool} {out : Option (List Node)}
    (h : Outcome v r (c ∧ b' = k.unit) s k others out) (hm : Means v r True s m b')
    (agree : c → others = k.unit → b' = b) :
    Outcome v r c s k (k.join id [b, others]) (out.map (m :: ·)) := by
  cases out with
  | none =>
    intro hc
    rw [Connective.eq_not_unit_iff, Ne, Connective.join_cons_eq_unit_iff, Connective.join_singleton]
    rintro ⟨unit, unit'⟩
    exact Connective.eq_not_unit_iff.1 (h ⟨hc, (agree hc unit').trans unit⟩) unit'
  | some l =>
    refine ⟨List.forall_mem_cons.2 ⟨hm.valid, h.valid⟩, fun hc => ?_⟩
    apply Connective.bool_ext (k := k)
    rw [Connective.join_cons_eq_unit_iff, Connective.join_cons_eq_unit_iff,
      Connective.join_singleton, hm.holds trivial, id, id]
    constructor
    · rintro ⟨unit, joined⟩
      have unit' : others = k.unit := (h.joined ⟨hc, unit⟩).symm.trans joined
      exact ⟨(agree hc unit').symm.trans unit, unit'⟩
    · rintro ⟨unit, unit'⟩
      have unit := (agree hc unit').trans unit
      exact ⟨unit, (h.joined ⟨hc, unit⟩).trans unit'⟩

/-- A member that is still to be pruned has its value, and where this makes no difference, the
assumption that it gives holds. -/
structure Pending.Fits (v : Vocabulary) (r : Record) (k : Connective) (val : Node → Bool)
    (s : Store) (p : Pending) : Prop where
  member : Means v r True s p.member (val p.member)
  premise : ∀ a ∈ p.premise, Means v r (val p.member = k.unit) s a true

theorem Pending.Fits.stable {val : Node → Bool} {p : Pending} :
    (Store.growth v).Stable fun s => p.Fits v r k val s := fun hs le h =>
  ⟨Means.stable hs le h.member, fun a ha => Means.stable hs le (h.premise a ha)⟩

theorem ensures_premise (h : Means v r True w.store m b) :
    (Work.growth v).Ensures (premise k m) w fun p w =>
      ∀ a ∈ p, Means v r (b = k.unit) w.store a true := by
  cases k with
  | and =>
    refine .pure fun _ a ha => ?_
    split at ha
    · cases ha
    · cases ha
      exact (h.weaken fun _ => trivial).congr fun unit => unit
  | or =>
    unfold premise
    simp only
    split
    · exact .pure fun _ a ha => by cases ha
    · refine (ensures_build (Store.ensures_complement h)).map fun m' w' _ _ h a ha => ?_
      cases ha
      exact (h.weaken fun _ => trivial).congr fun unit => by rw [unit]; rfl

theorem ensures_pruneFrom (hprune : Prunes v r prune) {val : Node → Bool} {pending : List Pending}
    (hm : Means v r True w.store m (val m)) (hp : ∀ p ∈ pending, p.Fits v r k val w.store)
    (known : ∀ a ∈ assumptions, Means v r c w.store a true) :
    (Work.growth v).Ensures (pruneFrom prune k assumptions m pending) w fun out w =>
      Outcome v r c w.store k (k.join val (m :: pending.map (·.member))) out := by
  induction pending generalizing m assumptions w c with
  | nil =>
    have hm : Means v r c w.store m (val m) := hm.weaken fun _ => trivial
    rw [pruneFrom]
    refine (hprune hm known).bind fun m' w' _ _ hm' => .pure fun _ => ?_
    rw [List.map_nil, Connective.join_singleton]
    split
    · next absorbing =>
      intro hc
      rw [← hm'.holds hc, absorbing, Store.holds_absorbingNode]
    · exact .singleton hm'
  | cons next rest ih =>
    rw [pruneFrom]
    -- What the members after `m` come to; `m` is pruned as if they made no difference.
    let others := k.join val ((next :: rest).map (·.member))
    have premises : ∀ a ∈ assumptions ++ (next :: rest).filterMap (·.premise),
        Means v r (c ∧ others = k.unit) w.store a true := by
      intro a ha
      rcases List.mem_append.1 ha with ha | ha
      · exact (known a ha).weaken And.left
      · obtain ⟨p, mem, ha⟩ := List.mem_filterMap.1 ha
        refine ((hp p mem).premise a ha).weaken fun hc => ?_
        exact Connective.join_eq_unit_iff.1 hc.2 _ (List.mem_map_of_mem mem)
    intro hw
    refine ((hprune (hm.weaken fun _ => trivial) premises).bind fun m' w₁ hw₁ le₁ hm' => ?_) hw
    split
    · next absorbing =>
      refine .pure fun _ hc => ?_
      rw [Connective.eq_not_unit_iff, Ne, Connective.join_cons_eq_unit_iff]
      rintro ⟨unit, unit'⟩
      have := hm'.holds ⟨hc, unit'⟩
      rw [absorbing, Store.holds_absorbingNode, unit] at this
      exact Connective.eq_not_unit_iff.1 this.symm rfl
    have agree : c → others = k.unit → w₁.store.holds (v.holds r) m' = val m :=
      fun hc unit => hm'.holds ⟨hc, unit⟩
    have hm' : Means v r True w₁.store m' (w₁.store.holds (v.holds r) m') := .of_valid hm'.valid
    refine ensures_check.bind fun _ w₂ hw₂ le₂ _ => ?_
    have hm' := Means.stable hw₁ le₂ hm'
    refine (ensures_premise hm').bind fun p w₃ hw₃ le₃ hprem => ?_
    have hm' := Means.stable hw₂ le₃ hm'
    have le : (Work.growth v).le w w₃ :=
      (Work.growth v).trans le₁ ((Work.growth v).trans le₂ le₃)
    have hp : ∀ p ∈ next :: rest, p.Fits v r k val w₃.store :=
      fun p mem => Pending.Fits.stable hw le (hp p mem)
    have known : ∀ a ∈ assumptions ++ p.toList,
        Means v r (c ∧ w₁.store.holds (v.holds r) m' = k.unit) w₃.store a true := by
      intro a ha
      rcases List.mem_append.1 ha with ha | ha
      · exact (Means.stable hw le (known a ha)).weaken And.left
      · exact (hprem a (Option.mem_toList.1 ha)).weaken And.right
    have tail := ih (hp next List.mem_cons_self).member
      (fun p mem => hp p (List.mem_cons_of_mem _ mem)) known
    refine tail.map fun out w₄ _ le₄ hout => ?_
    rw [Connective.join_cons]
    exact hout.cons (Means.stable hw₃ le₄ hm') agree

theorem ensures_pruneMembers (hprune : Prunes v r prune) (h : Joins v r c w.store k l b)
    (known : ∀ a ∈ assumptions, Means v r c w.store a true) :
    (Work.growth v).Ensures (pruneMembers prune k assumptions l) w fun out w =>
      Outcome v r c w.store k b out := by
  cases l with
  | nil => exact .pure fun _ => h
  | cons m rest =>
    let val := w.store.holds (v.holds r)
    have value : ∀ m' ∈ m :: rest, Means v r True w.store m' (val m') :=
      fun m' mem => .of_valid (h.valid m' mem)
    intro hw
    rw [pruneMembers]
    refine (ensures_check.bind fun _ w₁ hw₁ le₁ _ => ?_) hw
    have pend : (Work.growth v).Ensures
        (rest.mapM fun n => return (⟨n, ← premise k n⟩ : Pending)) w₁ fun pending w =>
          pending.map (·.member) = rest ∧ ∀ p ∈ pending, p.Fits v r k val w.store := by
      refine .map_mapM (P := fun n (w : Work) => Means v r True w.store n (val n))
        (fun _ _ _ hs le h => Means.stable hs le h)
        (fun _ _ _ hs le h => Pending.Fits.stable hs le h) (fun n _ w hn => ?_)
        fun n mem => Means.stable hw le₁ (value n (List.mem_cons_of_mem _ mem))
      intro hw
      refine ((ensures_premise hn).bind fun p w' _ le hprem => .pure fun _ => ?_) hw
      exact ⟨rfl, Means.stable hw le hn, hprem⟩
    refine pend.bind fun pending w₂ hw₂ le₂ h₂ => ?_
    obtain ⟨members, fits⟩ := h₂
    have le : (Work.growth v).le w w₂ := (Work.growth v).trans le₁ le₂
    have run := ensures_pruneFrom hprune (Means.stable hw le (value m List.mem_cons_self)) fits
      fun a ha => Means.stable hw le (known a ha)
    refine run.mono fun out w₃ _ _ hout => ?_
    rw [members] at hout
    exact hout.congr h.joined

/-! ## Members that the assumptions settle -/

theorem exists_openMembers_eq_ok {s : Store} (hs : s.Valid v) (hl : ∀ m ∈ l, s.ValidNode v m)
    (known : ∀ a ∈ assumptions, s.ValidNode v a) :
    ∃ out, openMembers s assumptions l = .ok out := by
  induction l with
  | nil => exact ⟨some [], rfl⟩
  | cons m rest ih =>
    rw [List.forall_mem_cons] at hl
    obtain ⟨settled, hsettled⟩ := Store.exists_settledBy_eq_ok hs hl.1 known
    obtain ⟨out, hout⟩ := ih hl.2
    rw [openMembers, hsettled]
    cases settled with
    | none =>
      rw [hout]
      exact ⟨_, rfl⟩
    | some value =>
      cases value with
      | true => exact ⟨_, rfl⟩
      | false => exact ⟨out, hout⟩

theorem openMembers_eq_ok {s : Store} (hs : s.Valid v) {out : Option (List Node)}
    (h : Joins v r c s .or l b) (known : ∀ a ∈ assumptions, Means v r c s a true)
    (eq : openMembers s assumptions l = .ok out) : Outcome v r c s .or b out := by
  induction l generalizing b out with
  | nil =>
    cases eq
    exact h
  | cons m rest ih =>
    unfold openMembers at eq
    obtain ⟨settled, hsettled, eq⟩ := bind_eq_ok_iff.1 eq
    obtain ⟨b₁, b₂, hm, tail, joined⟩ := h.uncons
    have settles : ∀ value, settled = some value → c → b₁ = value := by
      rintro value rfl hc
      rw [← hm.holds hc]
      exact Store.holds_of_settledBy hs hm.valid (fun a ha => (known a ha).valid) hsettled
        fun a ha => (known a ha).holds hc
    cases settled with
    | none =>
      obtain ⟨out', hout', eq⟩ := bind_eq_ok_iff.1 eq
      cases eq
      have tail := ih tail hout'
      refine Outcome.congr ?_ joined
      cases out' with
      | none =>
        intro hc
        rw [tail hc]
        exact Connective.join_eq_not_unit (List.mem_cons_of_mem _ List.mem_cons_self) rfl
      | some l => exact Joins.cons hm tail
    | some value =>
      cases value with
      | true =>
        cases eq
        intro hc
        rw [← joined hc, settles true rfl hc]
        exact Connective.join_eq_not_unit List.mem_cons_self rfl
      | false =>
        refine (ih tail eq).congr fun hc => ?_
        rw [← joined hc, settles false rfl hc]
        exact Connective.join_unit_pair.symm

/-! ## Following advice -/

/-- A pair of members, with the others and an advice that is right. -/
structure Finding.Fits (v : Vocabulary) (r : Record) (k : Connective) (s : Store) (l : List Node)
    (f : Finding) : Prop where
  mem_iff : ∀ m, m ∈ f.left :: f.right :: f.others ↔ m ∈ l
  advised : f.advice ≠ .retainBoth
  agrees : f.advice.Agrees k (s.holds (v.holds r) f.left) (s.holds (v.holds r) f.right)
    (v.Encodes f.left) (v.knowsAll r f.left)

theorem ensures_findPartner {left : Node} {before between : List Node}
    (hm : w.store.ValidNode v left) (hl : ∀ m ∈ l, w.store.ValidNode v m) :
    (Work.growth v).Ensures (findPartner k left before between l) w fun out w =>
      ∀ f ∈ out, f.Fits v r k w.store (before.reverse ++ left :: (between.reverse ++ l)) := by
  induction l generalizing w between with
  | nil => exact .pure fun _ f hf => by cases hf
  | cons right after ih =>
    rw [findPartner]
    refine ensures_check.bind fun _ w₁ _ le₁ _ => ?_
    have hm := hm.mono le₁
    have hl : ∀ m ∈ right :: after, w₁.store.ValidNode v m := fun m mem => (hl m mem).mono le₁
    have hright := hl right List.mem_cons_self
    have advised : (Work.growth v).Ensures (read (·.advise k left right)) w₁ fun advice w =>
        w.store.ValidNode v left ∧ (∀ m ∈ right :: after, w.store.ValidNode v m) ∧
          advice.Agrees k (w.store.holds (v.holds r) left) (w.store.holds (v.holds r) right)
            (v.Encodes left) (v.knowsAll r left) :=
      ensures_read fun hs => by
        obtain ⟨advice, h⟩ := Store.exists_advise_eq_ok (k := k) hs hm hright
        exact ⟨advice, h, hm, hl, Store.agrees_advise hs hm hright h⟩
    refine advised.bind fun advice w₂ _ _ h => ?_
    obtain ⟨hm, hl, agrees⟩ := h
    split
    · refine (ih hm fun m mem => hl m (List.mem_cons_of_mem _ mem)).mono fun out w₃ _ _ h => ?_
      simpa using h
    · next ne =>
      refine .pure fun _ f hf => ?_
      cases hf
      refine ⟨fun m => ?_, ne, agrees⟩
      simp only [List.mem_cons, List.mem_append, List.mem_reverse]
      grind

theorem ensures_findPair {before : List Node} (hl : ∀ m ∈ l, w.store.ValidNode v m) :
    (Work.growth v).Ensures (findPair k before l) w fun out w =>
      ∀ f ∈ out, f.Fits v r k w.store (before.reverse ++ l) := by
  induction l generalizing w before with
  | nil => exact .pure fun _ f hf => by cases hf
  | cons left rest ih =>
    rw [findPair]
    have hrest := fun m mem => hl m (List.mem_cons_of_mem _ mem)
    have found : (Work.growth v).Ensures (findPartner k left before [] rest) w _ :=
      ensures_findPartner (r := r) (hl left List.mem_cons_self) hrest
    refine found.bind fun out w₁ _ le h => ?_
    cases out with
    | some finding => exact .pure fun _ f hf => by cases hf; simpa using h finding rfl
    | none =>
      refine (ih fun m mem => (hrest m mem).mono le).mono fun out w₂ _ _ h => ?_
      simpa using h

namespace Finding

variable {s t : Store} {f : Finding} {kept : List Node}

/-- The value of the pair. -/
def value (v : Vocabulary) (r : Record) (k : Connective) (s : Store) (f : Finding) : Bool :=
  k.join id [s.holds (v.holds r) f.left, s.holds (v.holds r) f.right]

namespace Fits

theorem left_valid (hf : f.Fits v r k s l) (h : Joins v r c s k l b) : s.ValidNode v f.left :=
  h.valid _ ((hf.mem_iff _).1 List.mem_cons_self)

theorem right_valid (hf : f.Fits v r k s l) (h : Joins v r c s k l b) : s.ValidNode v f.right :=
  h.valid _ ((hf.mem_iff _).1 (List.mem_cons_of_mem _ List.mem_cons_self))

theorem pair (hf : f.Fits v r k s l) (h : Joins v r c s k l b) :
    Joins v r c s k [f.left, f.right] (f.value v r k s) :=
  .cons (.of_valid (hf.left_valid h)) (.singleton (.of_valid (hf.right_valid h)))

/-- A pair that decides the whole. -/
theorem eq_not_unit (hf : f.Fits v r k s l) (h : Joins v r c s k l b)
    (decided : f.value v r k s = !k.unit) (hc : c) : b = !k.unit := by
  rw [← h.joined hc, ← Connective.join_eq_of_mem_iff hf.mem_iff, Connective.eq_not_unit_iff,
    Ne, Connective.join_eq_unit_iff]
  intro unit
  rw [← (hf.pair h).joined hc, Connective.eq_not_unit_iff, Ne, Connective.join_eq_unit_iff]
    at decided
  exact decided fun m hm => unit m (List.mem_append_left f.others hm)

/-- What has the value of the pair can take its place next to the others. -/
theorem replace (hf : f.Fits v r k s l) (h : Joins v r c s k l b) (hs : s.Valid v)
    (le : s.Extends t) (hk : Joins v r c t k kept (f.value v r k s)) :
    Joins v r c t k (f.others ++ kept) b := by
  have all : Joins v r c t k ([f.left, f.right] ++ f.others) b :=
    Joins.stable hs le (h.of_mem_iff hf.mem_iff)
  have pair := Joins.stable hs le (hf.pair h)
  refine ⟨fun m hm => ?_, fun hc => ?_⟩
  · rcases List.mem_append.1 hm with hm | hm
    · exact all.valid m (List.mem_append_right _ hm)
    · exact hk.valid m hm
  · rw [← all.joined hc]
    apply Connective.bool_ext (k := k)
    rw [Connective.join_append_eq_unit_iff, Connective.join_append_eq_unit_iff, hk.joined hc,
      pair.joined hc, and_comm]

end Fits

/-- What a pair leaves in the place of itself comes to the same next to the others. -/
theorem ensures_kept (hf : f.Fits v r k w.store l) (h : Joins v r c w.store k l b)
    (h1 : f.advice ≠ .alwaysTrue) (h2 : f.advice ≠ .neverTrue) :
    (Work.growth v).Ensures f.kept w fun kept w => Joins v r c w.store k (f.others ++ kept) b := by
  intro hw
  have left : Means v r c w.store f.left _ := .of_valid (hf.left_valid h)
  have right : Means v r c w.store f.right _ := .of_valid (hf.right_valid h)
  have agrees := hf.agrees
  -- Where a member of the pair, or nothing, is kept, no list is added.
  have stay : ∀ kept : List Node, Joins v r c w.store k kept (f.value v r k w.store) →
      (Work.growth v).Ensures (pure kept : Pass (List Node)) w fun kept w =>
        Joins v r c w.store k (f.others ++ kept) b :=
    fun kept hk => .pure fun hw => hf.replace h hw (.refl _) hk
  unfold kept
  cases advice : f.advice with
  | retainBoth => exact (hf.advised advice).elim
  | removeLeft =>
    rw [advice] at agrees
    exact stay _ (.singleton (right.congr fun _ => Eq.symm agrees)) hw
  | removeRight =>
    rw [advice] at agrees
    exact stay _ (.singleton (left.congr fun _ => Eq.symm agrees)) hw
  | removeEither =>
    rw [advice] at agrees
    refine stay _ (.singleton (left.congr fun _ => ?_)) hw
    have same : w.store.holds (v.holds r) f.left = w.store.holds (v.holds r) f.right := agrees
    rw [value, same, Connective.join_pair_self]
  | removeBoth =>
    rw [advice] at agrees
    refine stay _ ⟨by simp, fun _ => ?_⟩ hw
    rw [value, agrees.1, agrees.2, Connective.join_nil, Connective.join_unit_pair]
  | replaceByKnown =>
    rw [advice] at agrees
    refine ((ensures_build (Store.ensures_knownCheck (r := r) (c := c) agrees.1)).bind
      fun m w' _ le hm => .pure fun _ => ?_) hw
    exact hf.replace h hw le (.singleton (hm.congr fun _ => agrees.2.symm))
  | alwaysTrue => exact (h1 advice).elim
  | neverTrue => exact (h2 advice).elim

end Finding

theorem ensures_applyAdvice (rounds : Nat) (h : Means v r c w.store n b) :
    (Work.growth v).Ensures (applyAdvice k rounds n) w fun n' w => Means v r c w.store n' b := by
  induction rounds generalizing w n with
  | zero => exact .pure fun _ => h
  | succ rounds ih =>
    rw [applyAdvice]
    split
    · exact .pure fun _ => h
    next hk =>
    intro hw
    refine ((ensures_members h (not_not.1 hk)).bind fun ms w₁ hw₁ le₁ joins => ?_) hw
    refine (ensures_findPair (r := r) joins.valid).bind fun out w₂ hw₂ le₂ fits => ?_
    have joins := Joins.stable hw₁ le₂ joins
    cases out with
    | none => exact .pure fun _ => Means.stable hw₁ le₂ (Means.stable hw le₁ h)
    | some f =>
      have fits := fits f rfl
      have agrees := fits.agrees
      simp only [List.reverse_nil, List.nil_append] at fits
      simp only
      split
      · next advice =>
        rw [advice] at agrees
        refine .pure fun _ => Means.all.congr fun hc => ?_
        rw [fits.eq_not_unit joins (by rw [agrees.1]; exact agrees.2) hc, agrees.1]
        rfl
      · next advice =>
        rw [advice] at agrees
        refine .pure fun _ => Means.none.congr fun hc => ?_
        rw [fits.eq_not_unit joins (by rw [agrees.1]; exact agrees.2) hc, agrees.1]
        rfl
      · next h1 h2 =>
        refine (Finding.ensures_kept fits joins h1 h2).bind fun kept w₃ _ _ joins => ?_
        exact (ensures_combine joins).bind fun n' w₄ _ _ h => ih h

/-! ## Rounds -/

theorem ensures_rejoin {rounds : Nat} {out : Option (List Node)}
    (h : Outcome v r c w.store k b out) :
    (Work.growth v).Ensures (rejoin k rounds out) w fun n w => Means v r c w.store n b := by
  cases out with
  | none => exact .pure fun _ => Means.absorbingNode.congr fun hc => (h hc).symm
  | some l => exact (ensures_combine h).bind fun n w' _ _ h => ensures_applyAdvice rounds h

theorem ensures_pruneOnce {rounds : Nat} (hprune : Prunes v r prune)
    (h : Means v r c w.store n b) (hk : n.connective? = some k)
    (known : ∀ a ∈ assumptions, Means v r c w.store a true) :
    (Work.growth v).Ensures (pruneOnce prune rounds assumptions k n) w fun n' w =>
      Means v r c w.store n' b := by
  intro hw
  refine ((ensures_members h hk).bind fun ms w₁ hw₁ le₁ joins => ?_) hw
  have known := fun a ha => Means.stable hw le₁ (known a ha)
  cases k with
  | and =>
    refine (ensures_pruneMembers hprune joins known).bind fun out w₂ _ _ hout => ?_
    exact ensures_rejoin hout
  | or =>
    have opened : (Work.growth v).Ensures (read (openMembers · assumptions ms)) w₁ fun out w =>
        Outcome v r c w.store .or b out ∧ ∀ a ∈ assumptions, Means v r c w.store a true :=
      ensures_read fun hs => by
        obtain ⟨out, eq⟩ := exists_openMembers_eq_ok hs joins.valid fun a ha => (known a ha).valid
        exact ⟨out, eq, openMembers_eq_ok hs joins known eq, known⟩
    refine opened.bind fun out w₂ _ _ ⟨hout, known⟩ => ?_
    cases out with
    | none => exact .pure fun _ => Means.all.congr fun hc => (hout hc).symm
    | some l =>
      refine (ensures_pruneMembers hprune hout known).bind fun out w₃ _ _ hout => ?_
      exact ensures_rejoin hout

theorem ensures_repeatStep {step : Connective → Node → Pass Node} {seen : List Node} {rounds : Nat}
    (hstep : ∀ {k n} {w' : Work}, (Work.growth v).valid w' → (Work.growth v).le w w' →
      Means v r c w'.store n b → n.connective? = some k →
      (Work.growth v).Ensures (step k n) w' fun n' w => Means v r c w.store n' b)
    (h : Means v r c w.store n b) :
    (Work.growth v).Ensures (repeatStep step seen rounds n) w fun n' w =>
      Means v r c w.store n' b := by
  induction rounds generalizing w n seen with
  | zero => exact .pure fun _ => h
  | succ rounds ih =>
    rw [repeatStep]
    split
    · exact .pure fun _ => h
    next k hk =>
    intro hw
    refine (ensures_check.bind fun _ w₁ hw₁ le₁ _ => ?_) hw
    refine (hstep hw₁ le₁ (Means.stable hw le₁ h) hk).bind fun n' w₂ hw₂ le₂ h' => ?_
    split
    · exact .pure fun _ => h'
    · exact ih (fun hw' le' => hstep hw' ((Work.growth v).trans le₁
        ((Work.growth v).trans le₂ le'))) h'

theorem ensures_settle (h : Means v r c w.store n b)
    (known : ∀ a ∈ assumptions, Means v r c w.store a true) :
    (Work.growth v).Ensures (settle n assumptions) w fun out w =>
      ∀ n' ∈ out, Means v r c w.store n' b := by
  have settled : (Work.growth v).Ensures (read (·.settledBy n assumptions)) w fun out _ =>
      ∀ value ∈ out, c → value = b :=
    ensures_read fun hs => by
      have valid := fun a ha => (known a ha).valid
      obtain ⟨out, eq⟩ := Store.exists_settledBy_eq_ok hs h.valid valid
      refine ⟨out, eq, fun value hvalue hc => ?_⟩
      cases hvalue
      rw [← h.holds hc]
      exact (Store.holds_of_settledBy hs h.valid valid eq fun a ha => (known a ha).holds hc).symm
  refine settled.bind fun out w' _ _ hout => .pure fun _ n' hn' => ?_
  obtain ⟨value, mem, rfl⟩ := Option.map_eq_some_iff.1 hn'
  cases value with
  | true => exact Means.all.congr (hout true mem)
  | false => exact Means.none.congr (hout false mem)

/-- Where its assumptions hold, a pruned node holds exactly where the node did. -/
theorem prunes_pruneWithin (fuel : Nat) : Prunes v r (pruneWithin fuel) := by
  induction fuel with
  | zero =>
    intro c w n assumptions b h known
    exact .pure fun _ => h
  | succ fuel ih =>
    intro c w n assumptions b h known hw
    rw [pruneWithin]
    refine (ensures_check.bind fun _ w₁ hw₁ le₁ _ => ?_) hw
    have h := Means.stable hw le₁ h
    have known := fun a ha => Means.stable hw le₁ (known a ha)
    split
    · exact .pure fun _ => h
    refine (ensures_settle h known).bind fun out w₂ hw₂ le₂ settled => ?_
    have h := Means.stable hw₁ le₂ h
    have known := fun a ha => Means.stable hw₁ le₂ (known a ha)
    split
    · next constant => exact .pure fun _ => settled constant rfl
    let step := pruneOnce (fun m context => pruneWithin fuel m context) fuel assumptions
    have round : (Work.growth v).Ensures (repeatStep step [n] fuel n) w₂ _ :=
      ensures_repeatStep
        (fun _ le h hk => ensures_pruneOnce ih h hk fun a ha => Means.stable hw₂ le (known a ha)) h
    refine round.bind fun n' w₃ hw₃ le₃ h' => ?_
    split
    · exact .pure fun _ => h'
    have known := fun a ha => Means.stable hw₂ le₃ (known a ha)
    refine (ensures_settle h' known).bind fun out w₄ hw₄ le₄ settled => ?_
    split
    · next constant => exact .pure fun _ => settled constant rfl
    · exact .pure fun _ => Means.stable hw₃ le₄ h'

theorem ensures_pruneUnder (h : Means v r c w.store n b)
    (known : ∀ a ∈ assumptions, Means v r c w.store a true) :
    (Work.growth v).Ensures (pruneUnder n assumptions) w fun n' w => Means v r c w.store n' b :=
  (prunes_pruneWithin (w.store.effort n) h known).of_run_eq rfl

theorem keeps_prune : Keeps v r Pass.prune := fun h => ensures_pruneUnder h (by simp)

end Pass

end Criteria

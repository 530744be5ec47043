import Criteria.Distribution
import Criteria.Proofs.Pruning

/-!
# Distribution is sound

**Theorem (`keeps_distribute`).** The OR-of-AND form of a node holds exactly where the node does.

Terms stand for their OR. Multiplying them with the members of an OR gives terms whose OR is the
conjunction of both (`ensures_products`), and pruning them keeps what they come to, so at any time
the terms and the ORs that are left have the value of the AND that is multiplied out.
-/

namespace Criteria

namespace Pass

open Store (Means Joins)

variable {v : Vocabulary} {r : Record} {c : Prop} {w : Work} {k : Connective} {n : Node}
  {l : List Node} {b b' : Bool}

/-! ## Products -/

theorem ensures_implies {a m : Node} (ha : Means v r c w.store a b)
    (hm : Means v r c w.store m b') :
    (Work.growth v).Ensures (read (·.implies a m)) w fun yes _ =>
      yes = true → c → b = true → b' = true :=
  ensures_read fun hs => by
    obtain ⟨yes, h⟩ := Store.exists_implies_eq_ok hs ha.valid hm.valid
    refine ⟨yes, h, fun implied hc holds => ?_⟩
    rw [implied] at h
    rw [← hm.holds hc]
    exact Store.holds_of_implies hs ha.valid hm.valid h ((ha.holds hc).trans holds)

theorem ensures_contradicts {a m : Node} (ha : Means v r c w.store a b)
    (hm : Means v r c w.store m b') :
    (Work.growth v).Ensures (read (·.contradicts a m)) w fun yes _ =>
      yes = true → c → b = true → b' = false :=
  ensures_read fun hs => by
    obtain ⟨yes, h⟩ := Store.exists_contradicts_eq_ok hs ha.valid hm.valid
    refine ⟨yes, h, fun contradicted hc holds => ?_⟩
    rw [contradicted] at h
    rw [← hm.holds hc, Bool.eq_false_iff]
    exact Store.not_holds_of_contradicts hs ha.valid hm.valid h ((ha.holds hc).trans holds)

theorem ensures_product {term factor : Node} (ht : Means v r c w.store term b)
    (hf : Means v r c w.store factor b') :
    (Work.growth v).Ensures (product term factor) w fun out w =>
      Joins v r c w.store .or out.toList (b && b') := by
  unfold product
  split
  · next all =>
    subst all
    refine .pure fun _ => .singleton (hf.congr fun hc => ?_)
    rw [← ht.holds hc, Store.holds_all, Bool.true_and]
  split
  · next all =>
    subst all
    refine .pure fun _ => .singleton (ht.congr fun hc => ?_)
    rw [← hf.holds hc, Store.holds_all, Bool.and_true]
  intro hw
  refine ((ensures_implies ht hf).bind fun forth w₁ hw₁ le₁ implied => ?_) hw
  have ht := Means.stable hw le₁ ht
  have hf := Means.stable hw le₁ hf
  split
  · next yes =>
    refine .pure fun _ => .singleton (ht.congr fun hc => ?_)
    have := implied yes hc
    revert this
    cases b <;> cases b' <;> decide
  refine (ensures_implies hf ht).bind fun back w₂ hw₂ le₂ implied => ?_
  have ht := Means.stable hw₁ le₂ ht
  have hf := Means.stable hw₁ le₂ hf
  split
  · next yes =>
    refine .pure fun _ => .singleton (hf.congr fun hc => ?_)
    have := implied yes hc
    revert this
    cases b <;> cases b' <;> decide
  refine (ensures_contradicts ht hf).bind fun never w₃ hw₃ le₃ contradicted => ?_
  have ht := Means.stable hw₂ le₃ ht
  have hf := Means.stable hw₂ le₃ hf
  split
  · next yes =>
    refine .pure fun _ => ⟨by simp, fun hc => ?_⟩
    have := contradicted yes hc
    revert this
    rw [Option.toList_none, Connective.join_nil]
    cases b <;> cases b' <;> decide
  have both : Joins v r c w₃.store .and [term, factor] (b && b') :=
    (Joins.cons ht (.singleton hf)).congr fun _ => by simp [Connective.join]
  refine (ensures_combine both).bind fun n w₄ _ _ h => .pure fun _ => ?_
  split
  · next none =>
    subst none
    refine ⟨by simp, fun hc => ?_⟩
    rw [← h.holds hc, Store.holds_none]
    rfl
  · exact .singleton h

/-- Each product is a conjunction, so the products of a term with all factors are the conjunction of
the term with the factors. -/
theorem ensures_productsOf {term : Node} (ht : Means v r c w.store term b)
    (hl : Joins v r c w.store .or l b') :
    (Work.growth v).Ensures (productsOf term l) w fun out w =>
      Joins v r c w.store .or out (b && b') := by
  induction l generalizing w b' with
  | nil =>
    refine .pure fun _ => ⟨by simp, fun hc => ?_⟩
    rw [← hl.joined hc, Connective.join_nil]
    cases b <;> rfl
  | cons factor rest ih =>
    intro hw
    rw [productsOf]
    obtain ⟨b₁, b₂, head, tail, eq⟩ := hl.uncons
    refine (ensures_check.bind fun _ w₁ hw₁ le₁ _ => ?_) hw
    have ht := Means.stable hw le₁ ht
    refine (ensures_product ht (Means.stable hw le₁ head)).bind fun out w₂ hw₂ le₂ hout => ?_
    have ht := Means.stable hw₁ le₂ ht
    have tail := Joins.stable hw₁ le₂ (Joins.stable hw le₁ tail)
    refine (ih ht tail).bind fun out' w₃ _ le₃ hout' => .pure fun _ => ?_
    refine ((Joins.stable hw₂ le₃ hout).append hout').congr fun hc => ?_
    rw [← eq hc]
    cases b <;> simp [Connective.join]

theorem ensures_products {factors : List Node} (hf : Joins v r c w.store .or factors b')
    (hl : Joins v r c w.store .or l b) :
    (Work.growth v).Ensures (products factors l) w fun out w =>
      Joins v r c w.store .or out (b && b') := by
  induction l generalizing w b with
  | nil =>
    refine .pure fun _ => ⟨by simp, fun hc => ?_⟩
    rw [← hl.joined hc, Connective.join_nil]
    rfl
  | cons term rest ih =>
    intro hw
    rw [products]
    obtain ⟨b₁, b₂, head, tail, eq⟩ := hl.uncons
    refine ((ensures_productsOf head hf).bind fun out w₁ hw₁ le₁ hout => ?_) hw
    have tail := Joins.stable hw le₁ tail
    refine (ih (Joins.stable hw le₁ hf) tail).bind fun out' w₂ _ le₂ hout' => .pure fun _ => ?_
    refine ((Joins.stable hw₁ le₂ hout).append hout').congr fun hc => ?_
    rw [← eq hc]
    cases b' <;> simp [Connective.join]

/-! ## Terms -/

/-- Pruning terms keeps what they come to. -/
theorem ensures_cleanUp (h : Joins v r c w.store .or l b) :
    (Work.growth v).Ensures (cleanUp l) w fun out w => Joins v r c w.store .or out b := by
  refine (ensures_combine h).bind fun n w₁ _ _ h => ?_
  refine (keeps_prune h).bind fun n' w₂ _ _ h => ?_
  split
  · next hn => exact ensures_members h (Node.isOr_iff.1 hn)
  · refine .pure fun _ => ?_
    split
    · next none =>
      subst none
      exact ⟨by simp, fun hc => (Store.holds_none.symm.trans (h.holds hc))⟩
    · exact .singleton h

theorem ensures_multiplyOut {cleanup : Nat} {terms : List Node}
    (ht : Joins v r c w.store .or terms b) (hl : Joins v r c w.store .and l b')
    (ors : ∀ n ∈ l, n.isOr = true) :
    (Work.growth v).Ensures (multiplyOut cleanup terms l) w fun out w =>
      Joins v r c w.store .or out (b && b') := by
  induction l generalizing w terms b b' with
  | nil =>
    refine .pure fun _ => ht.congr fun hc => ?_
    rw [← hl.joined hc, Connective.join_nil]
    exact (Bool.and_true _).symm
  | cons n rest ih =>
    intro hw
    rw [multiplyOut]
    obtain ⟨b₁, b₂, head, tail, eq⟩ := hl.uncons
    have hn := Node.isOr_iff.1 (ors n List.mem_cons_self)
    refine ((ensures_members head hn).bind fun ms w₁ hw₁ le₁ hms => ?_) hw
    refine (ensures_products hms (Joins.stable hw le₁ ht)).bind fun out w₂ hw₂ le₂ hout => ?_
    have next : Joins v r c w₂.store .or (Ascending.ofList out) (b && b₁) :=
      hout.of_mem_iff fun m => Ascending.mem_ofList
    have tail := Joins.stable hw₁ le₂ (Joins.stable hw le₁ tail)
    have go : ∀ {w₃ : Work} {terms : List Node}, Joins v r c w₃.store .or terms (b && b₁) →
        Joins v r c w₃.store .and rest b₂ →
        (Work.growth v).Ensures
          (if terms.isEmpty then pure terms else multiplyOut cleanup terms rest) w₃
          fun out w => Joins v r c w.store .or out (b && b') := by
      intro w₃ terms ht tail
      split
      · next empty =>
        -- No terms are left, so the whole cannot hold.
        rw [List.isEmpty_iff] at empty
        subst empty
        refine .pure fun _ => ht.congr fun hc => ?_
        have none : (b && b₁) = false := (ht.joined hc).symm
        rw [← eq hc, none]
        simp only [Connective.join, List.all_cons, List.all_nil, id, Bool.and_true]
        rw [← Bool.and_assoc, none, Bool.false_and]
      · refine (ih ht tail fun m hm => ors m (List.mem_cons_of_mem _ hm)).mono
          fun out w₄ _ _ h => h.congr fun hc => ?_
        rw [← eq hc]
        simp [Connective.join, Bool.and_assoc]
    simp only
    split
    · refine (ensures_cleanUp next).bind fun terms w₃ _ le₃ hterms => ?_
      exact go hterms (Joins.stable hw₂ le₃ tail)
    · exact go next tail

/-! ## Nodes -/

theorem ensures_distributeAnd {cleanup : Nat} (h : Joins v r c w.store .and l b) :
    (Work.growth v).Ensures (distributeAnd cleanup l) w fun n w => Means v r c w.store n b := by
  unfold distributeAnd
  rw [List.partition_eq_filter_filter]
  simp only
  let ors := l.filter (·.isOr)
  let others := l.filter (not ∘ (·.isOr))
  have parts : Joins v r c w.store .and (ors ++ others) b := h.of_mem_iff fun m => by
    rw [List.mem_append, List.mem_filter, List.mem_filter, Function.comp]
    cases m.isOr <;> simp
  obtain ⟨b₁, b₂, hors, hothers, eq⟩ := parts.unappend
  simp only [Connective.join, List.all_cons, List.all_nil, id, Bool.and_true] at eq
  intro hw
  refine ((ensures_combine hothers).bind fun base w₁ hw₁ le₁ hbase => ?_) hw
  split
  · next done =>
    refine .pure fun _ => hbase.congr fun hc => ?_
    rw [Bool.or_eq_true, List.isEmpty_iff, decide_eq_true_eq] at done
    rw [← eq hc]
    rcases done with empty | rfl
    · have : b₁ = true := by
        rw [← hors.joined hc, show ors = [] from empty, Connective.join_nil]
        rfl
      rw [this, Bool.true_and]
    · rw [← hbase.holds hc, Store.holds_none, Bool.and_false]
  · have isOr : ∀ m ∈ ors, m.isOr = true := fun m hm => (List.mem_filter.1 hm).2
    have terms := Joins.singleton (k := .or) hbase
    refine (ensures_multiplyOut terms (Joins.stable hw le₁ hors) isOr).bind
      fun out w₂ _ _ hout => ?_
    refine ensures_combine (hout.congr fun hc => ?_)
    rw [← eq hc, Bool.and_comm]

theorem keeps_distributeWithin (cleanup fuel : Nat) :
    Keeps v r (distributeWithin cleanup fuel) := by
  induction fuel with
  | zero =>
    intro c w n b h
    exact .pure fun _ => h
  | succ fuel ih =>
    intro c w n b h hw
    rw [distributeWithin]
    refine (ensures_check.bind fun _ w₁ _ le₁ _ => ?_) hw
    have h := Means.stable hw le₁ h
    split
    · exact .pure fun _ => h
    next k hk =>
    refine (ensures_members h hk).bind fun ms w₂ _ _ hms => ?_
    refine (ih.ensures_mapM hms).bind fun ms' w₃ _ _ hms' => ?_
    cases k with
    | and => exact ensures_distributeAnd hms'
    | or => exact ensures_combine hms'

/-- The OR-of-AND form of a node holds exactly where the node does. -/
theorem keeps_distribute (cleanup : Nat) : Keeps v r (distribute cleanup) := fun {_ w n _} h =>
  (keeps_distributeWithin cleanup (w.store.effort n) h).of_run_eq rfl

end Pass

end Criteria

import Criteria.Proofs.Repetition.Pruning
import Criteria.Proofs.NormalForm

/-!
# Distribution again

**Theorem (`repeats_distribute`).** A node that was brought into OR-of-AND form is brought into it
again by the same steps, and no list is added.

Distribution goes round in no loop that could be cut short: products are taken of lists that were
read before, and a node nests less deep than any effort reaches. What is sorted on the way is sorted
by the numbers of lists, and these are the same the second time.
-/

namespace Criteria

namespace Pass

open Store (AtMost TotalAtMost)

variable {v : Vocabulary} {w : Work} {k : Connective} {n : Node} {l terms : List Node}
  {cleanup : Nat}

theorem repeats_combine_valid (h : ∀ m ∈ l, w.store.ValidNode v m) :
    (Work.repetition v).Repeats (combine k l) (combine k l) w fun n w => w.store.ValidNode v n :=
  (repeats_combine ⟨h, Nat.le_refl _⟩).mono fun _ _ _ _ h => h.valid

theorem repeats_members_valid (hk : n.connective? = some k) :
    (Work.repetition v).Repeats (members n) (members n) w fun l w =>
      ∀ m ∈ l, w.store.ValidNode v m ∧ m.level < n.level := by
  refine repeats_read (Store.lasting_members n) fun hs l hl m hm => ?_
  have list := (Store.list?_of_members hl).2
  exact ⟨hs.members _ _ list m hm, Store.level_lt_of_mem hs.layered hk list hm⟩

/-! ## Products -/

theorem repeats_product {term factor : Node} (ht : w.store.ValidNode v term)
    (hf : w.store.ValidNode v factor) :
    (Work.repetition v).Repeats (product term factor) (product term factor) w fun out w =>
      ∀ m ∈ out, w.store.ValidNode v m := by
  have one : ∀ {w' : Work} {m : Node}, w'.store.ValidNode v m →
      (Work.repetition v).Repeats (pure (some m) : Pass (Option Node)) (pure (some m)) w'
        fun out w => ∀ m ∈ out, w.store.ValidNode v m := fun h => .pure fun _ m hm => by
    cases hm
    exact h
  unfold product
  split
  · exact one hf
  split
  · exact one ht
  refine (repeats_ask (Store.lasting_implies term factor)).bind fun forth w₁ _ le₁ _ => ?_
  split
  · exact one (ht.mono le₁)
  refine (repeats_ask (Store.lasting_implies factor term)).bind fun back w₂ _ le₂ _ => ?_
  have le : w.store.Extends w₂.store := le₁.trans le₂
  split
  · exact one (hf.mono le)
  refine (repeats_ask (Store.lasting_contradicts term factor)).bind fun never w₃ _ le₃ _ => ?_
  have le : w.store.Extends w₃.store := le.trans le₃
  split
  · exact .pure fun _ m hm => by cases hm
  refine (repeats_combine_valid fun m hm => ?_).bind fun n w₄ _ _ hn => .pure fun _ m hm => ?_
  · rcases List.mem_pair.1 hm with rfl | rfl
    · exact ht.mono le
    · exact hf.mono le
  · split at hm
    · cases hm
    · cases hm
      exact hn

theorem repeats_productsOf {term : Node} (ht : w.store.ValidNode v term)
    (hl : ∀ m ∈ l, w.store.ValidNode v m) :
    (Work.repetition v).Repeats (productsOf term l) (productsOf term l) w fun out w =>
      ∀ m ∈ out, w.store.ValidNode v m := by
  induction l generalizing w with
  | nil => exact .pure fun _ => by simp
  | cons factor rest ih =>
    rw [List.forall_mem_cons] at hl
    rw [productsOf]
    refine repeats_check.bind fun _ w₁ _ le₁ _ => ?_
    refine (repeats_product (ht.mono le₁) (hl.1.mono le₁)).bind fun out w₂ _ le₂ hout => ?_
    have le : w.store.Extends w₂.store := le₁.trans le₂
    refine (ih (ht.mono le) fun m hm => (hl.2 m hm).mono le).bind fun outs w₃ _ le₃ houts =>
      .pure fun _ m hm => ?_
    rcases List.mem_append.1 hm with hm | hm
    · exact (hout m (Option.mem_toList.1 hm)).mono le₃
    · exact houts m hm

theorem repeats_products (hl : ∀ m ∈ l, w.store.ValidNode v m)
    (ht : ∀ m ∈ terms, w.store.ValidNode v m) :
    (Work.repetition v).Repeats (products l terms) (products l terms) w fun out w =>
      ∀ m ∈ out, w.store.ValidNode v m := by
  induction terms generalizing w with
  | nil => exact .pure fun _ => by simp
  | cons term rest ih =>
    rw [List.forall_mem_cons] at ht
    rw [products]
    refine (repeats_productsOf ht.1 hl).bind fun out w₁ _ le₁ hout => ?_
    refine (ih (fun m hm => (hl m hm).mono le₁) fun m hm => (ht.2 m hm).mono le₁).bind
      fun outs w₂ _ le₂ houts => .pure fun _ m hm => ?_
    rcases List.mem_append.1 hm with hm | hm
    · exact (hout m hm).mono le₂
    · exact houts m hm

theorem repeats_cleanUp (ht : ∀ m ∈ terms, w.store.ValidNode v m) :
    (Work.repetition v).Repeats (cleanUp terms) (cleanUp terms) w fun out w =>
      ∀ m ∈ out, w.store.ValidNode v m := by
  refine (repeats_combine ⟨ht, Nat.le_refl _⟩).bind fun n w₁ _ _ hn => ?_
  refine (repeats_prune hn).bind fun n' w₂ _ _ hn' => ?_
  split
  · next isOr =>
    exact (repeats_members_valid (Node.isOr_iff.1 isOr)).mono
      fun _ _ _ _ h m hm => (h m hm).1
  · refine .pure fun _ m hm => ?_
    split at hm
    · cases hm
    · exact List.mem_singleton.1 hm ▸ hn'.valid

theorem repeats_multiplyOut (ht : ∀ m ∈ terms, w.store.ValidNode v m)
    (ho : ∀ n ∈ l, w.store.ValidNode v n ∧ n.isOr = true) :
    (Work.repetition v).Repeats (multiplyOut cleanup terms l) (multiplyOut cleanup terms l) w
      fun out w => ∀ m ∈ out, w.store.ValidNode v m := by
  induction l generalizing w terms with
  | nil => exact .pure fun _ => ht
  | cons n rest ih =>
    rw [List.forall_mem_cons] at ho
    rw [multiplyOut]
    refine (repeats_members_valid (Node.isOr_iff.1 ho.1.2)).bind fun ms w₁ _ le₁ hms => ?_
    refine (repeats_products (fun m hm => (hms m hm).1) fun m hm => (ht m hm).mono le₁).bind
      fun out w₂ _ le₂ hout => ?_
    have le : w.store.Extends w₂.store := le₁.trans le₂
    have hnext : ∀ m ∈ Ascending.ofList out, w₂.store.ValidNode v m := fun m hm =>
      hout m (Ascending.mem_ofList.1 hm)
    have go : ∀ {w' : Work} {next : List Node}, w.store.Extends w'.store →
        (∀ m ∈ next, w'.store.ValidNode v m) →
        (Work.repetition v).Repeats
          (if next.isEmpty then pure next else multiplyOut cleanup next rest)
          (if next.isEmpty then pure next else multiplyOut cleanup next rest) w'
          fun out w => ∀ m ∈ out, w.store.ValidNode v m := by
      intro w' next le hnext
      split
      · exact .pure fun _ => hnext
      · exact ih hnext fun n hn => ⟨(ho.2 n hn).1.mono le, (ho.2 n hn).2⟩
    simp only
    split
    · exact (repeats_cleanUp hnext).bind fun next w₃ _ le₃ h => go (le.trans le₃) h
    · exact go le hnext

/-! ## Nodes -/

theorem repeats_distributeAnd (h : ∀ m ∈ l, w.store.ValidNode v m) :
    (Work.repetition v).Repeats (distributeAnd cleanup l) (distributeAnd cleanup l) w
      fun n w => w.store.ValidNode v n := by
  unfold distributeAnd
  have ors : ∀ n ∈ (l.partition (·.isOr)).1, w.store.ValidNode v n ∧ n.isOr = true := fun n hn => by
    rw [List.partition_eq_filter_filter] at hn
    exact ⟨h n (List.mem_filter.1 hn).1, (List.mem_filter.1 hn).2⟩
  have others : ∀ n ∈ (l.partition (·.isOr)).2, w.store.ValidNode v n := fun n hn => by
    rw [List.partition_eq_filter_filter] at hn
    exact h n (List.mem_filter.1 hn).1
  refine (repeats_combine_valid others).bind fun base w₁ _ le₁ hbase => ?_
  split
  · exact .pure fun _ => hbase
  refine (repeats_multiplyOut (List.forall_mem_singleton.2 hbase) fun n hn =>
    ⟨(ors n hn).1.mono le₁, (ors n hn).2⟩).bind fun out w₂ _ _ hout => repeats_combine_valid hout

theorem repeats_distributeWithin {fuel fuel' : Nat} (h : w.store.ValidNode v n)
    (hf : n.level < fuel) (hf' : n.level < fuel') :
    (Work.repetition v).Repeats (distributeWithin cleanup fuel n)
      (distributeWithin cleanup fuel' n) w fun n' w => w.store.ValidNode v n' := by
  induction fuel generalizing fuel' w n with
  | zero => omega
  | succ fuel ih =>
    obtain ⟨fuel', rfl⟩ : ∃ i, fuel' = i + 1 := ⟨fuel' - 1, by omega⟩
    rw [distributeWithin, distributeWithin]
    refine repeats_check.bind fun _ w₁ _ le₁ _ => ?_
    have h := h.mono le₁
    cases hk : n.connective? with
    | none => exact .pure fun _ => h
    | some k =>
      refine (repeats_members_valid hk).bind fun ms w₂ _ _ hms => ?_
      have each : (Work.repetition v).Repeats (ms.mapM (distributeWithin cleanup fuel))
          (ms.mapM (distributeWithin cleanup fuel')) w₂
          fun ms' w => List.Forall₂ (fun _ m' => w.store.ValidNode v m') ms ms' :=
        .mapM (P := fun m (w : Work) => w.store.ValidNode v m ∧ m.level < n.level)
          (fun _ _ _ _ le h => ⟨h.1.mono le, h.2⟩) (fun _ _ _ _ _ le h => h.mono le)
          (fun m _ w hm => ih hm.1 (by have := hm.2; omega) (by have := hm.2; omega)) hms
      refine each.bind fun ms' w₃ _ _ hms' => ?_
      have valid : ∀ m ∈ ms', w₃.store.ValidNode v m := fun m hm => by
        obtain ⟨-, -, valid⟩ := exists_of_mem_forall₂ hms' hm
        exact valid
      cases k with
      | and => exact repeats_distributeAnd valid
      | or => exact repeats_combine_valid valid

/-- **A node that was distributed is distributed again to the same node.** -/
theorem repeats_distribute (h : w.store.ValidNode v n) :
    (Work.repetition v).Repeats (distribute cleanup n) (distribute cleanup n) w
      fun n' w => w.store.ValidNode v n' := by
  refine .assuming fun hw => ?_
  exact .look (x := distributeWithin cleanup (w.store.effort n) n) rfl fun t _ _ =>
    ⟨distributeWithin cleanup (t.store.effort n) n, rfl,
      repeats_distributeWithin h (level_lt_effort hw h) (level_lt_effort hw h)⟩

end Pass

end Criteria

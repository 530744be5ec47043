import Criteria.Proofs.Repetition.Pruning

/-!
# Factoring again

**Theorem (`repeats_factor`).** A node from which common members were taken out gives the same node
again, and no list is added.

Which overlap is taken out depends on how lists are sorted, and so on numbers, but these are the
same the second time. Taking out ends before the effort does, because it leaves fewer leaves: an
overlap is there once afterwards and was there in two ANDs at least before (`Remainder.Bears`).
-/

namespace Criteria

namespace Pass

open Store (AtMost TotalAtMost)

variable {v : Vocabulary} {w : Work} {n : Node} {l ms overlap : List Node}
  {ls found : List (List Node)} {p q : Node → Pass Node} {c most rounds rounds' : Nat}

/-! ## Overlaps -/

theorem lasting_andLists (ms : List Node) : Store.Lasting (andLists · ms) := by
  induction ms with
  | nil => exact Store.lasting_const _
  | cons n rest ih =>
    exact .ite ((Store.lasting_members n).bind fun l => ih.bind fun _ => Store.lasting_const _) ih

theorem repeats_overlapsWith : (Work.repetition v).Repeats (overlapsWith l ls) (overlapsWith l ls) w
    fun out _ => ∀ o ∈ out, o ≠ [] := by
  induction ls generalizing w with
  | nil => exact .pure fun _ => by simp
  | cons other rest ih =>
    rw [overlapsWith]
    refine repeats_check.bind fun _ w₁ _ _ _ => ih.bind fun out w₂ _ _ hout => .pure fun _ => ?_
    split
    · exact hout
    · next apart => exact List.forall_mem_cons.2 ⟨fun eq => apart (List.isEmpty_iff.2 eq), hout⟩

theorem repeats_overlaps : (Work.repetition v).Repeats (overlaps ls) (overlaps ls) w
    fun out _ => ∀ o ∈ out, o ≠ [] := by
  induction ls generalizing w with
  | nil => exact .pure fun _ => by simp
  | cons l rest ih =>
    rw [overlaps]
    refine repeats_overlapsWith.bind fun front w₁ _ _ hfront => ?_
    refine ih.bind fun back w₂ _ _ hback => .pure fun _ o ho => ?_
    exact (List.mem_append.1 ho).elim (hfront o) (hback o)

theorem repeats_bestOf {best : Option Candidate} :
    (Work.repetition v).Repeats (bestOf found best ls) (bestOf found best ls) w
      fun _ _ => True := by
  induction ls generalizing w best with
  | nil => exact .pure fun _ => trivial
  | cons l rest ih =>
    rw [bestOf]
    exact repeats_check.bind fun _ w₁ _ _ _ => ih

/-- An overlap that is found is not empty, and can be taken out of two members at least. -/
theorem repeats_bestOverlap (h : ∀ m ∈ ms, w.store.ValidNode v m) :
    (Work.repetition v).Repeats (bestOverlap ms) (bestOverlap ms) w fun out w => ∀ o ∈ out,
      o ≠ [] ∧ (∀ m ∈ o, w.store.ValidNode v m) ∧ 2 ≤ ms.countP (w.store.yields o) := by
  refine .assuming fun hw => ?_
  have nonempty : (Work.repetition v).Repeats (bestOverlap ms) (bestOverlap ms) w
      fun out _ => ∀ o ∈ out, o ≠ [] := by
    refine (repeats_ask (lasting_andLists ms)).bind fun ls w₁ _ _ _ =>
      repeats_overlaps.bind fun found w₂ _ _ hfound => ?_
    have best : Work.additions.Ensures (bestOf found none (Ascending.ofList found)) w₂
        fun out _ => ∀ c ∈ out, c.members ≠ [] :=
      ensures_bestOf (P := (· ≠ [])) (by simp) fun o ho => hfound o (Ascending.mem_ofList.1 ho)
    refine (repeats_bestOf.ensuring best trivial).map fun out w₃ _ _ ⟨_, hout⟩ o ho => ?_
    obtain ⟨c, hc, rfl⟩ := Option.map_eq_some_iff.1 ho
    exact hout c hc
  have twice : Work.additions.Ensures (bestOverlap ms) w _ := ensures_yields_bestOverlap
  refine ((nonempty.ensuring (ensures_bestOverlap h) hw).ensuring twice trivial).mono
    fun out w' _ _ ⟨⟨h1, h2⟩, h3⟩ o ho => ⟨h1 o ho, h2 o ho, h3 o ho⟩

/-! ## Taking out -/

/-- What is left of members that bear `c` leaves: every rest has lost the leaves of the overlap. -/
structure Remainder.Bears (v : Vocabulary) (s : Store) (c : Nat) (overlap : List Node)
    (r : Remainder) : Prop where
  rests : ∀ m ∈ r.rests, s.ValidNode v m
  others : ∀ m ∈ r.others, s.ValidNode v m
  le : s.total r.rests + r.rests.length * s.total overlap + s.total r.others ≤ c
  one_le : r.rests ≠ [] → 1 ≤ s.total overlap

theorem repeats_takeOut (nonempty : overlap ≠ []) (ho : ∀ m ∈ overlap, w.store.ValidNode v m)
    (h : w.store.TotalAtMost v c l) :
    (Work.repetition v).Repeats (takeOut overlap l) (takeOut overlap l) w
      fun r w => r.Bears v w.store c overlap := by
  induction l generalizing w c with
  | nil => exact .pure fun _ => ⟨by simp, by simp, by simp, by simp⟩
  | cons m rest ih =>
    obtain ⟨head, tail, share⟩ := h.uncons
    have keep : ∀ {w' : Work}, w.store.Valid v → w'.store.Valid v → w.store.Extends w'.store →
        (Work.repetition v).Repeats (do
          let r ← takeOut overlap rest
          return { r with others := m :: r.others }) (do
          let r ← takeOut overlap rest
          return { r with others := m :: r.others }) w' fun r w => r.Bears v w.store c overlap := by
      intro w' hw hw' le
      refine (ih (fun m hm => (ho m hm).mono le) (tail.of_extends hw le)).map
        fun r w'' _ le' hr => ⟨hr.rests, ?_, ?_, hr.one_le⟩
      · exact List.forall_mem_cons.2 ⟨head.valid.mono (le.trans le'), hr.others⟩
      · have := hr.le
        have := (head.of_extends hw (le.trans le')).le
        show w''.store.total r.rests + r.rests.length * _ + w''.store.total (m :: r.others) ≤ c
        rw [Store.total_cons]
        omega
    rw [takeOut]
    split
    · next isAnd =>
      refine .assuming fun hw => (repeats_members head (Node.isAnd_iff.1 isAnd)).bind
        fun l' w₁ hw₁ le₁ read => ?_
      obtain ⟨-, hc, total⟩ := read
      split
      · next sub =>
        have lost := Store.total_add_total_remove_le (s := w₁.store) hc.ascending sub
        have rest : w₁.store.TotalAtMost v _ (Ascending.remove l' overlap) :=
          ⟨fun m hm => total.valid m (Ascending.mem_of_mem_remove hm), Nat.le_refl _⟩
        have few := total.le
        refine (repeats_combine rest).bind fun n w₂ hw₂ le₂ hn => ?_
        have le : w.store.Extends w₂.store := le₁.trans le₂
        refine (ih (fun m hm => (ho m hm).mono le) (tail.of_extends hw le)).map
          fun r w₃ hw₃ le₃ hr => ?_
        have hn := hn.of_extends hw₂ le₃
        have same := Store.total_of_extends hw₁ (le₂.trans le₃) fun m hm => (ho m hm).mono le₁
        refine ⟨List.forall_mem_cons.2 ⟨hn.valid, hr.rests⟩, hr.others, ?_, fun _ => ?_⟩
        · have := hr.le
          have := hn.le
          show w₃.store.total (n :: r.rests) + (r.rests.length + 1) * w₃.store.total overlap +
            w₃.store.total r.others ≤ c
          rw [Store.total_cons, Nat.succ_mul]
          omega
        · -- No member of an AND is a constant, so each member of the overlap bears a leaf.
          have bears : ∀ m ∈ overlap, 1 ≤ w₃.store.occurrences m := fun m hm =>
            Store.one_le_occurrences hw₃ ((ho m hm).mono (le.trans le₃))
              (hc.not_isConstant (Ascending.mem_of_subset sub m hm))
          exact (List.length_pos_iff.2 nonempty).trans_le (Store.length_le_total bears)
      · exact keep hw hw₁ le₁
    · exact .assuming fun hw => keep hw hw (.refl _)

/-- An overlap is taken out of two members at least, and each loses the leaves of it. -/
theorem repeats_takeOut_twice (h : w.store.TotalAtMost v c ms) (nonempty : overlap ≠ [])
    (ho : ∀ m ∈ overlap, w.store.ValidNode v m) (two : 2 ≤ ms.countP (w.store.yields overlap)) :
    (Work.repetition v).Repeats (takeOut overlap ms) (takeOut overlap ms) w fun r w =>
      r.Bears v w.store c overlap ∧ 1 ≤ w.store.total overlap ∧
        w.store.total r.rests + 2 * w.store.total overlap + w.store.total r.others ≤ c := by
  refine ((repeats_takeOut nonempty ho h).ensuring ensures_rests_takeOut trivial).mono
    fun r w₁ _ _ ⟨hr, rests⟩ => ?_
  have two := two.trans rests
  have one := hr.one_le fun eq => by simp [eq] at two
  have double : 2 * w₁.store.total overlap ≤ r.rests.length * w₁.store.total overlap :=
    Nat.mul_le_mul_right _ two
  have le := hr.le
  exact ⟨hr, one, by omega⟩

/-- Taking out an overlap leaves a leaf less at least. -/
theorem repeats_factorOut (shrinks : Shrinks v most p q) (few : c ≤ most + 1)
    (h : w.store.TotalAtMost v (c + 1) ms) (nonempty : overlap ≠ [])
    (ho : ∀ m ∈ overlap, w.store.ValidNode v m) (two : 2 ≤ ms.countP (w.store.yields overlap)) :
    (Work.repetition v).Repeats (factorOut p ms overlap) (factorOut q ms overlap) w
      fun n w => w.store.AtMost v c n := by
  refine .assuming fun hw => (repeats_takeOut_twice h nonempty ho two).bind
    fun r w₁ hw₁ le₁ taken => ?_
  obtain ⟨hr, one, le⟩ := taken
  have hrests : w₁.store.TotalAtMost v _ r.rests := ⟨hr.rests, Nat.le_refl _⟩
  have hothers : w₁.store.TotalAtMost v _ r.others := ⟨hr.others, Nat.le_refl _⟩
  have ho : w₁.store.TotalAtMost v _ overlap := ⟨fun m hm => (ho m hm).mono le₁, Nat.le_refl _⟩
  refine (repeats_combine hrests).bind fun inner w₂ hw₂ le₂ hinner => ?_
  refine (shrinks (by omega) hinner).bind fun inner' w₃ hw₃ le₃ hinner' => ?_
  have joined := (ho.of_extends hw₁ (le₂.trans le₃)).merge (.singleton hinner')
  refine (repeats_combine joined).bind fun factored w₄ hw₄ le₄ hfactored => ?_
  have whole := (hothers.of_extends hw₁ (le₂.trans (le₃.trans le₄))).append (.singleton hfactored)
  exact repeats_combine (whole.mono (by omega))

/-- What taking out one overlap makes of a node; nothing if it has none. -/
def factorOnce (factor : Node → Pass Node) (n : Node) : Pass (Option Node) := do
  if !n.isOr then return none
  check
  let ms ← members n
  match ← bestOverlap ms with
  | none => return none
  | some overlap => return some (← factorOut factor ms overlap)

/-- One overlap is taken out and then the next, until there is none. -/
theorem factorAll_succ : factorAll p (rounds + 1) n = (do
    match ← factorOnce p n with
    | none => return n
    | some n' => factorAll p rounds n') := by
  rw [factorAll, factorOnce]
  split
  · rw [pure_bind]
  simp only [bind_assoc]
  refine bind_congr fun _ => bind_congr fun ms => bind_congr fun out => ?_
  cases out with
  | none => rw [pure_bind]
  | some overlap => simp only [bind_assoc, pure_bind]

theorem repeats_factorOnce (shrinks : Shrinks v most p q) (few : c ≤ most + 1)
    (h : w.store.AtMost v c n) :
    (Work.repetition v).Repeats (factorOnce p n) (factorOnce q n) w fun out w =>
      ∀ n' ∈ out, w.store.ValidNode v n' ∧ w.store.occurrences n' < c := by
  rw [factorOnce, factorOnce]
  split
  · exact .pure fun _ => by simp
  next isOr =>
  rw [Bool.not_eq_true', Bool.not_eq_false, Node.isOr_iff] at isOr
  refine .assuming fun hw => repeats_check.bind fun _ w₁ hw₁ le₁ _ => ?_
  have h := h.of_extends hw le₁
  have bears := Store.one_le_occurrences_of_connective? hw₁ h.valid isOr
  have le := h.le
  obtain ⟨c, rfl⟩ : ∃ i, c = i + 1 := ⟨c - 1, by omega⟩
  refine (repeats_members h isOr).bind fun ms w₂ hw₂ le₂ read => ?_
  obtain ⟨-, -, total⟩ := read
  refine (repeats_bestOverlap total.valid).bind fun out w₃ hw₃ le₃ hout => ?_
  cases out with
  | none => exact .pure fun _ => by simp
  | some overlap =>
    obtain ⟨nonempty, ho, two⟩ := hout overlap rfl
    refine (repeats_factorOut shrinks (by omega) (total.of_extends hw₂ le₃) nonempty ho two).bind
      fun n' w₄ _ _ h' => .pure fun _ n'' hn'' => ?_
    cases hn''
    exact ⟨h'.valid, Nat.lt_succ_of_le h'.le⟩

/-- Taking out overlaps ends before the rounds do, since each leaves a leaf less. -/
theorem repeats_factorAll (shrinks : Shrinks v most p q) (few : c ≤ most + 1)
    (hr : c < rounds) (hr' : c < rounds') (h : w.store.AtMost v c n) :
    (Work.repetition v).Repeats (factorAll p rounds n) (factorAll q rounds' n) w
      fun n' w => w.store.AtMost v c n' := by
  induction rounds generalizing rounds' w n c with
  | zero => omega
  | succ rounds ih =>
    obtain ⟨rounds', rfl⟩ : ∃ i, rounds' = i + 1 := ⟨rounds' - 1, by omega⟩
    rw [factorAll_succ, factorAll_succ]
    refine .assuming fun hw => (repeats_factorOnce shrinks few h).bind fun out w₁ _ le₁ fewer => ?_
    cases out with
    | none => exact .pure fun _ => h.of_extends hw le₁
    | some n' =>
      obtain ⟨valid, less⟩ := fewer n' rfl
      exact (ih (by omega) (by omega) (by omega) ⟨valid, Nat.le_refl _⟩).mono
        fun _ _ _ _ h' => h'.mono less.le

/-! ## Nodes -/

theorem Shrinks.mapM (shrinks : Shrinks v most p q) (each : ∀ m ∈ l, w.store.AtMost v most m)
    (h : w.store.TotalAtMost v c l) :
    (Work.repetition v).Repeats (l.mapM p) (l.mapM q) w fun l w => w.store.TotalAtMost v c l := by
  induction l generalizing w c with
  | nil =>
    rw [List.mapM_nil, List.mapM_nil]
    exact .pure fun _ => .nil
  | cons m rest ih =>
    rw [List.mapM_cons, List.mapM_cons]
    obtain ⟨head, tail, share⟩ := h.uncons
    refine .assuming fun hw => (shrinks (each m List.mem_cons_self).le head).bind
      fun m' w₁ hw₁ le₁ hm' => ?_
    refine (ih (fun m hm => ?_) (tail.of_extends hw le₁)).bind fun l' w₂ _ le₂ hl' => .pure fun _ =>
      (TotalAtMost.cons (hm'.of_extends hw₁ le₂) hl').mono share
    exact (each m (List.mem_cons_of_mem _ hm)).of_extends hw le₁

/-- Factoring repeats, if both times there is effort for all leaves. -/
theorem shrinks_factorWithin {fuel fuel' : Nat} (hf : most + 1 < fuel) (hf' : most + 1 < fuel') :
    Shrinks v most (factorWithin fuel) (factorWithin fuel') := by
  induction fuel generalizing fuel' most with
  | zero => omega
  | succ fuel ih =>
    obtain ⟨fuel', rfl⟩ : ∃ i, fuel' = i + 1 := ⟨fuel' - 1, by omega⟩
    intro w n c few h
    rw [factorWithin, factorWithin]
    refine .assuming fun hw => repeats_check.bind fun _ w₁ hw₁ le₁ _ => ?_
    have h := h.of_extends hw le₁
    cases hk : n.connective? with
    | none => exact .pure fun _ => h
    | some k =>
    have bears := Store.one_le_occurrences_of_connective? hw₁ h.valid hk
    have le := h.le
    obtain ⟨most, rfl⟩ : ∃ i, most = i + 1 := ⟨most - 1, by omega⟩
    have shrinks : Shrinks v most (factorWithin fuel) (factorWithin fuel') :=
      ih (by omega) (by omega)
    refine (repeats_members h hk).bind fun ms w₂ hw₂ _ read => ?_
    obtain ⟨-, hc, total⟩ := read
    refine (shrinks.mapM (total.members hw₂ hc few) total).bind fun ms' w₃ _ _ hms' => ?_
    refine (repeats_combine hms').bind fun n' w₄ _ _ h' => ?_
    cases k with
    | and => exact .pure fun _ => h'
    | or =>
      exact (repeats_factorAll shrinks few (by omega) (by omega) h').bind
        fun n'' w₅ _ _ h'' => repeats_prune h''

/-- **A node that was factored is factored again to the same node.** -/
theorem repeats_factor (h : w.store.ValidNode v n) :
    (Work.repetition v).Repeats (factor n) (factor n) w fun n' w => w.store.ValidNode v n' := by
  refine .assuming fun hw => ?_
  have nodes : 1 ≤ UInt32.size := by decide
  have enough : ∀ t : Work, w.store.PartOf t.store →
      w.store.occurrences n + 1 < t.store.effort n := fun t part => by
    have := Store.occurrences_add_lt_effort hw part h
    omega
  have again : (Work.repetition v).Repeats (factor n) (factor n) w
      fun n' w' => w'.store.AtMost v (w.store.occurrences n) n' :=
    .look (x := factorWithin (w.store.effort n) n) rfl fun t same _ =>
      ⟨factorWithin (t.store.effort n) n, rfl, shrinks_factorWithin (enough w (.refl _))
        (enough t same.2) (Nat.le_refl _) ⟨h, Nat.le_refl _⟩⟩
  exact again.mono fun _ _ _ _ h' => h'.valid

end Pass

end Criteria

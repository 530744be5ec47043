import Criteria.Factoring
import Criteria.Proofs.Pruning

/-!
# Factoring is sound

**Theorem (`keeps_factor`).** A node with common members taken out holds exactly where it did.

Taking out is right for any list of valid nodes that the factored ANDs contain, so of the search for
the best overlap only this much matters: what it finds are members of members
(`ensures_bestOverlap`).
-/

namespace Criteria

namespace Pass

open Store (Means Joins)

variable {v : Vocabulary} {r : Record} {c : Prop} {w : Work} {n : Node} {l : List Node}
  {ls found : List (List Node)} {b b' : Bool}

/-! ## Overlaps -/

theorem exists_andLists_eq_ok {s : Store} (h : ∀ m ∈ l, s.ValidNode v m) :
    ∃ ls, andLists s l = .ok ls := by
  induction l with
  | nil => exact ⟨[], rfl⟩
  | cons n rest ih =>
    rw [List.forall_mem_cons] at h
    obtain ⟨back, hback⟩ := ih h.2
    rw [andLists, hback]
    split
    · next isAnd =>
      obtain ⟨front, hfront⟩ := h.1.exists_members (Node.isAnd_iff.1 isAnd)
      rw [hfront]
      exact ⟨_, rfl⟩
    · exact ⟨back, rfl⟩

theorem andLists_eq_ok {s : Store} (hs : s.Valid v) (h : andLists s l = .ok ls) :
    ∀ m ∈ ls, ∀ n ∈ m, s.ValidNode v n := by
  induction l generalizing ls with
  | nil =>
    cases h
    simp
  | cons n rest ih =>
    unfold andLists at h
    split at h
    · obtain ⟨front, hfront, h⟩ := bind_eq_ok_iff.1 h
      obtain ⟨back, hback, h⟩ := bind_eq_ok_iff.1 h
      cases h
      exact List.forall_mem_cons.2
        ⟨hs.members _ _ (Store.list?_of_members hfront).2, ih hback⟩
    · exact ih h

theorem ensures_overlapsWith :
    (Work.growth v).Ensures (overlapsWith l ls) w fun out _ =>
      ∀ o ∈ out, ∀ n ∈ o, n ∈ l := by
  induction ls generalizing w with
  | nil => exact .pure fun _ => by simp
  | cons other rest ih =>
    rw [overlapsWith]
    refine ensures_check.bind fun _ w₁ _ _ _ => ih.bind fun out w₂ _ _ hout => .pure fun _ => ?_
    split
    · exact hout
    · exact List.forall_mem_cons.2 ⟨fun n hn => (Ascending.mem_of_mem_intersect hn).1, hout⟩

theorem ensures_overlaps :
    (Work.growth v).Ensures (overlaps ls) w fun out _ =>
      ∀ o ∈ out, ∃ l ∈ ls, ∀ n ∈ o, n ∈ l := by
  induction ls generalizing w with
  | nil => exact .pure fun _ => by simp
  | cons l rest ih =>
    rw [overlaps]
    refine ensures_overlapsWith.bind fun front w₁ _ _ hfront => ?_
    refine ih.bind fun back w₂ _ _ hback => .pure fun _ o ho => ?_
    rcases List.mem_append.1 ho with ho | ho
    · exact ⟨l, List.mem_cons_self, hfront o ho⟩
    · obtain ⟨m, hm, sub⟩ := hback o ho
      exact ⟨m, List.mem_cons_of_mem _ hm, sub⟩

/-- The best of some candidates is one of them. -/
theorem ensures_bestOf {g : Growth Fault Store} {P : List Node → Prop} {best : Option Candidate}
    (hbest : ∀ c ∈ best, P c.members) (hl : ∀ l ∈ ls, P l) :
    (Work.lift g).Ensures (bestOf found best ls) w fun out _ => ∀ c ∈ out, P c.members := by
  induction ls generalizing w best with
  | nil => exact .pure fun _ => hbest
  | cons l rest ih =>
    rw [bestOf]
    refine ensures_check.bind fun _ w₁ _ _ _ => ih (fun c hc => ?_)
      fun m hm => hl m (List.mem_cons_of_mem _ hm)
    cases hc
    unfold Candidate.orBest
    split
    · exact hl l List.mem_cons_self
    · split
      · exact hl l List.mem_cons_self
      · exact hbest _ rfl

/-- An overlap that is found consists of valid nodes. -/
theorem ensures_bestOverlap (hl : ∀ m ∈ l, w.store.ValidNode v m) :
    (Work.growth v).Ensures (bestOverlap l) w fun out w =>
      ∀ o ∈ out, ∀ n ∈ o, w.store.ValidNode v n := by
  have lists : (Work.growth v).Ensures (read (andLists · l)) w fun ls w =>
      ∀ m ∈ ls, ∀ n ∈ m, w.store.ValidNode v n := ensures_read fun hs => by
    obtain ⟨ls, h⟩ := exists_andLists_eq_ok hl
    exact ⟨ls, h, andLists_eq_ok hs h⟩
  refine lists.bind fun ls w₁ _ _ hls => ensures_overlaps.bind fun found w₂ _ le₂ hfound => ?_
  have valid : ∀ o ∈ Ascending.ofList found, ∀ n ∈ o, w₂.store.ValidNode v n := by
    intro o ho n hn
    obtain ⟨m, hm, sub⟩ := hfound o (Ascending.mem_ofList.1 ho)
    exact (hls m hm n (sub n hn)).mono le₂
  refine (ensures_bestOf (P := fun o => ∀ n ∈ o, w₂.store.ValidNode v n) (by simp) valid).map
    fun out w₃ _ le₃ hout o ho n hn => ?_
  obtain ⟨c, hc, rfl⟩ := Option.map_eq_some_iff.1 ho
  exact (hout c hc n hn).mono le₃

/-! ## Taking out -/

/-- What is left of members with value `b` next to an overlap of value `o`. -/
def Remainder.Fits (v : Vocabulary) (r : Record) (c : Prop) (s : Store) (o b : Bool)
    (x : Remainder) : Prop :=
  ∃ b₁ b₂, Joins v r c s .or x.rests b₁ ∧ Joins v r c s .or x.others b₂ ∧
    (c → (o && b₁ || b₂) = b)

/-- An AND that contains an overlap is the overlap and the rest. -/
theorem joins_remove {s : Store} {overlap : List Node} (h : Joins v r c s .and l b)
    (ho : Joins v r c s .and overlap b') (sub : Ascending.subset overlap l = true) :
    ∃ b₁, Joins v r c s .and (Ascending.remove l overlap) b₁ ∧ (c → (b' && b₁) = b) := by
  have parts : Joins v r c s .and (overlap ++ Ascending.remove l overlap) b := by
    refine h.of_mem_iff fun m => ?_
    rw [List.mem_append]
    constructor
    · rintro (hm | hm)
      · exact Ascending.mem_of_subset sub m hm
      · exact Ascending.mem_of_mem_remove hm
    · exact Ascending.mem_or_mem_remove
  obtain ⟨b₁, b₂, front, back, eq⟩ := parts.unappend
  refine ⟨b₂, back, fun hc => ?_⟩
  rw [← eq hc, ← ho.joined hc, front.joined hc]
  simp [Connective.join]

theorem ensures_takeOut {overlap : List Node} (h : Joins v r c w.store .or l b)
    (ho : Joins v r c w.store .and overlap b') :
    (Work.growth v).Ensures (takeOut overlap l) w fun x w => x.Fits v r c w.store b' b := by
  induction l generalizing w b with
  | nil =>
    refine .pure fun _ => ⟨_, _, h, h, fun hc => ?_⟩
    rw [← h.joined hc, Connective.join_nil]
    cases b' <;> rfl
  | cons m rest ih =>
    obtain ⟨b₁, b₂, head, tail, eq⟩ := h.uncons
    simp only [Connective.join, List.any_cons, List.any_nil, id, Bool.or_false] at eq
    have keep : ∀ {w' : Work}, (Work.growth v).valid w' → (Work.growth v).le w w' →
        (Work.growth v).valid w → (Work.growth v).Ensures (do
          let x ← takeOut overlap rest
          return { x with others := m :: x.others }) w' fun x w => x.Fits v r c w.store b' b := by
      intro w' hw' le hw
      refine (ih (Joins.stable hw le tail) (Joins.stable hw le ho)).map fun x w'' _ le' h => ?_
      obtain ⟨b₃, b₄, hrests, hothers, eq'⟩ := h
      have head := Means.stable hw' le' (Means.stable hw le head)
      refine ⟨_, _, hrests, .cons head hothers, fun hc => ?_⟩
      rw [← eq hc, ← eq' hc]
      simp [Connective.join, Bool.or_left_comm]
    rw [takeOut]
    split
    · next isAnd =>
      intro hw
      refine ((ensures_members head (Node.isAnd_iff.1 isAnd)).bind fun l w₁ hw₁ le₁ hl => ?_) hw
      have ho := Joins.stable hw le₁ ho
      have tail := Joins.stable hw le₁ tail
      split
      · next sub =>
        obtain ⟨b₃, hrest, eq'⟩ := joins_remove hl ho sub
        refine (ensures_combine hrest).bind fun n w₂ hw₂ le₂ hn => ?_
        have tail := Joins.stable hw₁ le₂ tail
        refine (ih tail (Joins.stable hw₁ le₂ ho)).map fun x w₃ _ le₃ h => ?_
        obtain ⟨b₄, b₅, hrests, hothers, eq''⟩ := h
        refine ⟨_, _, .cons (Means.stable hw₂ le₃ hn) hrests, hothers, fun hc => ?_⟩
        rw [← eq hc, ← eq' hc, ← eq'' hc]
        simp [Connective.join, Bool.and_or_distrib_left, Bool.or_assoc]
      · exact keep hw₁ le₁ hw
    · exact fun hw => keep hw ((Work.growth v).refl w) hw hw

/-- Replacing members by the overlap joined to the rests keeps what they come to. -/
theorem ensures_factorOut {factor : Node → Pass Node} (hf : Keeps v r factor) {overlap : List Node}
    (h : Joins v r c w.store .or l b) (valid : ∀ n ∈ overlap, w.store.ValidNode v n) :
    (Work.growth v).Ensures (factorOut factor l overlap) w fun n w => Means v r c w.store n b := by
  intro hw
  have ho : Joins v r c w.store .and overlap _ := ⟨valid, fun _ => rfl⟩
  refine ((ensures_takeOut h ho).bind fun x w₁ hw₁ le₁ ⟨b₁, b₂, hrests, hothers, eq⟩ => ?_) hw
  refine (ensures_combine hrests).bind fun inner w₂ hw₂ le₂ hinner => ?_
  refine (hf hinner).bind fun inner w₃ hw₃ le₃ hinner => ?_
  have ho := Joins.stable hw₂ le₃ (Joins.stable hw₁ le₂ (Joins.stable hw le₁ ho))
  have whole : Joins v r c w₃.store .and (Ascending.merge overlap [inner]) _ :=
    (ho.append (.singleton hinner)).of_mem_iff fun m => by rw [Ascending.mem_merge, List.mem_append]
  refine (ensures_combine whole).bind fun factored w₄ hw₄ le₄ hfactored => ?_
  have hothers := Joins.stable hw₃ le₄ (Joins.stable hw₂ le₃ (Joins.stable hw₁ le₂ hothers))
  refine ensures_combine ((hothers.append (.singleton hfactored)).congr fun hc => ?_)
  rw [← eq hc]
  simp [Connective.join, Bool.or_comm]

theorem ensures_factorAll {factor : Node → Pass Node} (hf : Keeps v r factor) (rounds : Nat) :
    Keeps v r (factorAll factor rounds) := by
  induction rounds with
  | zero =>
    intro c w n b h
    exact .pure fun _ => h
  | succ rounds ih =>
    intro c w n b h
    rw [factorAll]
    split
    · exact .pure fun _ => h
    next isOr =>
    rw [Bool.not_eq_true', Bool.not_eq_false, Node.isOr_iff] at isOr
    intro hw
    refine (ensures_check.bind fun _ w₁ hw₁ le₁ _ => ?_) hw
    have h := Means.stable hw le₁ h
    refine (ensures_members h isOr).bind fun ms w₂ hw₂ le₂ hms => ?_
    refine (ensures_bestOverlap hms.valid).bind fun out w₃ _ le₃ hout => ?_
    cases out with
    | none => exact .pure fun _ => Means.stable hw₂ le₃ (Means.stable hw₁ le₂ h)
    | some overlap =>
      refine (ensures_factorOut hf (Joins.stable hw₂ le₃ hms) (hout overlap rfl)).bind
        fun n' w₄ _ _ h' => ih h'

theorem keeps_factorWithin (fuel : Nat) : Keeps v r (factorWithin fuel) := by
  induction fuel with
  | zero =>
    intro c w n b h
    exact .pure fun _ => h
  | succ fuel ih =>
    intro c w n b h hw
    rw [factorWithin]
    refine (ensures_check.bind fun _ w₁ _ le₁ _ => ?_) hw
    have h := Means.stable hw le₁ h
    split
    · exact .pure fun _ => h
    next k hk =>
    refine (ensures_members h hk).bind fun ms w₂ _ _ hms => ?_
    refine (ih.ensures_mapM hms).bind fun ms' w₃ _ _ hms' => ?_
    refine (ensures_combine hms').bind fun n' w₄ _ _ h' => ?_
    cases k with
    | and => exact .pure fun _ => h'
    | or =>
      refine (ensures_factorAll ih fuel h').bind fun n'' w₅ _ _ h'' => ?_
      exact keeps_prune h''

/-- A node with common members taken out holds exactly where it did. -/
theorem keeps_factor : Keeps v r factor := fun {_ w n _} h =>
  (keeps_factorWithin (w.store.effort n) h).of_run_eq rfl

end Pass

end Criteria

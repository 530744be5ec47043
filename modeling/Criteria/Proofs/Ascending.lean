import Mathlib.Data.List.Sort
import Criteria.Ascending
import Criteria.Node

/-!
# Laws of ascending lists

What the walks of `Criteria.Ascending` find. Half of each law needs no order at all: what a walk
gives back was in the lists it was given, however they are arranged. Only finding everything, and
staying in order, needs ascending lists over a strict total order.

Main statements: `ascending_merge` and `ascending_ofList`, `contains_iff_mem`, `subset_iff`,
`mem_intersect` and `mem_remove`, and that what two lists have in common is a subset of both
(`occursIn_intersect_left`, `occursIn_intersect_right`).

**Theorem (`set_algebra`).** On ascending lists the walks are intersection, difference, union and
inclusion of the sets of their elements. An ascending list is determined by its elements, so the
union of a subset and of the difference to it is the list itself.
-/

namespace Criteria

namespace Ascending

variable {α : Type} [LT α] [DecidableLT α]

/-! ## Walks over any lists -/

theorem mem_of_mem_atLeast {x y : α} {l : List α} (h : y ∈ atLeast x l) : y ∈ l :=
  (List.dropWhile_sublist _).mem h

theorem lt_of_mem_takeWhile {x y : α} {l : List α} (h : y ∈ l.takeWhile (· < x)) : y < x := by
  simpa using List.all_eq_true.1 List.all_takeWhile y h

theorem mem_atLeast_of_not_lt {x y : α} {l : List α} (ge : ¬ y < x) (h : y ∈ l) :
    y ∈ atLeast x l := by
  rw [← List.takeWhile_append_dropWhile (p := (decide <| · < x)) (l := l)] at h
  exact (List.mem_append.1 h).resolve_left fun h => ge (lt_of_mem_takeWhile h)

variable [DecidableEq α]

theorem mem_of_contains {l : List α} {x : α} (h : contains l x = true) : x ∈ l := by
  induction l with
  | nil => simp [contains] at h
  | cons y ys ih =>
    rw [contains] at h
    split at h
    · exact List.mem_cons_of_mem _ (ih h)
    · rw [decide_eq_true_eq] at h
      exact h ▸ List.mem_cons_self

theorem sublist_of_occursIn {small large : List α} (h : occursIn small large = true) :
    small.Sublist large := by
  fun_induction occursIn small large with
  | case1 => exact List.nil_sublist _
  | case2 => cases h
  | case3 x xs y ys _ ih => exact (ih h).cons y
  | case4 x xs y ys _ ih =>
    rw [Bool.and_eq_true, decide_eq_true_eq] at h
    obtain ⟨rfl, h⟩ := h
    exact (ih h).cons_cons y

theorem mem_of_occursIn {small large : List α} (h : occursIn small large = true) :
    ∀ x ∈ small, x ∈ large := fun _ hx => (sublist_of_occursIn h).mem hx

theorem subset_of_occursIn {small large : List α} (h : occursIn small large = true) :
    subset small large = true := by
  rw [subset, h, decide_eq_true (sublist_of_occursIn h).length_le]
  rfl

/-- The walk for one element drops what lies below it. -/
theorem occursIn_cons {x : α} {xs large : List α} :
    occursIn (x :: xs) large = match atLeast x large with
      | [] => false
      | y :: ys => y = x && occursIn xs ys := by
  induction large with
  | nil => rfl
  | cons z zs ih =>
    rw [occursIn, atLeast, List.dropWhile_cons]
    by_cases below : z < x
    · rw [if_pos below, if_pos (decide_eq_true below), ih]
      rfl
    · rw [if_neg below, if_neg (by simpa using below)]

theorem mem_of_subset {small large : List α} (h : subset small large = true) :
    ∀ x ∈ small, x ∈ large := by
  rw [subset, Bool.and_eq_true] at h
  exact mem_of_occursIn h.2

theorem mem_of_mem_intersect {a b : List α} {x : α} (h : x ∈ intersect a b) : x ∈ a ∧ x ∈ b := by
  induction a generalizing b with
  | nil => simp [intersect] at h
  | cons y ys ih =>
    rw [intersect] at h
    have sub : ∀ z ∈ atLeast y b, z ∈ b := fun z => mem_of_mem_atLeast
    split at h
    · simp at h
    · next z zs hz =>
      rw [hz] at sub
      split at h
      · next eq =>
        rcases List.mem_cons.1 h with rfl | h
        · exact ⟨List.mem_cons_self, sub _ (eq ▸ List.mem_cons_self)⟩
        · exact ⟨List.mem_cons_of_mem _ (ih h).1, sub _ (List.mem_cons_of_mem _ (ih h).2)⟩
      · exact ⟨List.mem_cons_of_mem _ (ih h).1, sub _ (ih h).2⟩

theorem remove_sublist (a b : List α) : (remove a b).Sublist a := by
  induction a generalizing b with
  | nil => exact List.nil_sublist []
  | cons y ys ih =>
    rw [remove]
    split
    · exact (ih _).cons y
    · exact (ih _).cons_cons y

theorem mem_of_mem_remove {a b : List α} {x : α} (h : x ∈ remove a b) : x ∈ a :=
  (remove_sublist a b).mem h

/-- Only elements of the second list are removed. -/
theorem mem_or_mem_remove {a b : List α} {x : α} (h : x ∈ a) : x ∈ b ∨ x ∈ remove a b := by
  induction a generalizing b with
  | nil => simp at h
  | cons y ys ih =>
    have sub : ∀ z ∈ atLeast y b, z ∈ b := fun z => mem_of_mem_atLeast
    have tail : x ∈ ys → x ∈ b ∨ x ∈ remove ys (atLeast y b) := fun hx =>
      (ih hx).imp_left (sub x)
    rw [remove]
    split
    · next head =>
      rcases List.mem_cons.1 h with rfl | hx
      · exact .inl (sub _ (List.mem_of_mem_head? head))
      · exact tail hx
    · rcases List.mem_cons.1 h with rfl | hx
      · exact .inr List.mem_cons_self
      · exact (tail hx).imp_right (List.mem_cons_of_mem _)

/-! ## Order -/

variable [IsStrictTotalOrder α (· < ·)]

omit [DecidableLT α] [DecidableEq α] in
theorem lt_of_not_lt {x y : α} (h : ¬ y < x) (ne : x ≠ y) : x < y :=
  (trichotomous_of (· < ·) x y).resolve_right fun h' => h'.elim ne h

omit [DecidableEq α] in
/-- What an ascending list has from the first element on that is not below `x`. -/
theorem not_lt_of_mem_atLeast {x y : α} {l : List α} (hl : Ascending l) (h : y ∈ atLeast x l) :
    ¬ y < x := by
  induction l with
  | nil => simp [atLeast] at h
  | cons z zs ih =>
    obtain ⟨hz, hzs⟩ := List.pairwise_cons.1 hl
    rw [atLeast, List.dropWhile_cons] at h
    split at h
    · exact ih hzs h
    · next ge =>
      rw [decide_eq_true_eq] at ge
      rcases List.mem_cons.1 h with rfl | h
      · exact ge
      · exact fun lt => ge (trans_of (· < ·) (hz y h) lt)

theorem contains_iff_mem {l : List α} {x : α} (hl : Ascending l) :
    contains l x = true ↔ x ∈ l := by
  refine ⟨mem_of_contains, fun h => ?_⟩
  induction l with
  | nil => simp at h
  | cons y ys ih =>
    obtain ⟨hy, hys⟩ := List.pairwise_cons.1 hl
    rw [contains]
    rcases List.mem_cons.1 h with rfl | hx
    · simp [irrefl_of (· < ·) x]
    · rw [if_pos (hy x hx)]
      exact ih hys hx

/-- An element of an ascending list either comes first or is above what comes first. -/
theorem lt_of_mem_atLeast {x y z : α} {ys : List α} {l : List α} (hl : Ascending l)
    (h : atLeast x l = y :: ys) (hz : z ∈ if y = x then ys else y :: ys) : x < z := by
  have asc : Ascending (y :: ys) := h ▸ hl.sublist (List.dropWhile_sublist _)
  have above : ∀ w ∈ ys, y < w := (List.pairwise_cons.1 asc).1
  split at hz
  · next eq => exact eq ▸ above z hz
  · next ne =>
    have head : x < y := by
      have ge := not_lt_of_mem_atLeast hl (h ▸ List.mem_cons_self)
      exact lt_of_not_lt ge fun eq => ne eq.symm
    rcases List.mem_cons.1 hz with rfl | hz
    · exact head
    · exact trans_of (· < ·) head (above z hz)

/-- All elements of an ascending list are removed that are in the other. -/
theorem not_mem_of_mem_remove {a b : List α} {x : α} (ha : Ascending a) (hb : Ascending b)
    (h : x ∈ remove a b) : x ∉ b := by
  induction a generalizing b with
  | nil => cases h
  | cons y ys ih =>
    obtain ⟨hy, hys⟩ := List.pairwise_cons.1 ha
    have rest : Ascending (atLeast y b) := hb.sublist (List.dropWhile_sublist _)
    -- What lies below `y` in the other list is not met again.
    have tail : x ∈ remove ys (atLeast y b) → x ∉ b := fun h hx =>
      ih hys rest h (mem_atLeast_of_not_lt
        (fun lt => asymm_of (· < ·) lt (hy x (mem_of_mem_remove h))) hx)
    rw [remove] at h
    split at h
    · exact tail h
    · next head =>
      rcases List.mem_cons.1 h with rfl | h
      · intro hx
        have hx := mem_atLeast_of_not_lt (irrefl_of (· < ·) x) hx
        cases found : atLeast x b with
        | nil =>
          rw [found] at hx
          cases hx
        | cons z zs =>
          rw [found] at hx head rest
          rcases List.mem_cons.1 hx with rfl | hx
          · exact head rfl
          · exact not_lt_of_mem_atLeast hb (found ▸ List.mem_cons_self)
              ((List.pairwise_cons.1 rest).1 x hx)
      · exact tail h

theorem ascending_merge {a b : List α} (ha : Ascending a) (hb : Ascending b) :
    Ascending (merge a b) := by
  induction a generalizing b with
  | nil => exact hb
  | cons x xs ih =>
    obtain ⟨hx, hxs⟩ := List.pairwise_cons.1 ha
    -- The part below `x`, then `x`, then the merged part above `x`.
    have assemble : ∀ {tail : List α}, Ascending tail → (∀ z ∈ tail, x < z) →
        Ascending (b.takeWhile (· < x) ++ x :: tail) := fun htail above =>
      List.pairwise_append.2 ⟨hb.sublist (List.takeWhile_sublist _),
        List.pairwise_cons.2 ⟨above, htail⟩, fun y hy z hz => by
          have lt := lt_of_mem_takeWhile hy
          rcases List.mem_cons.1 hz with rfl | hz
          · exact lt
          · exact trans_of (· < ·) lt (above z hz)⟩
    rw [merge]
    split
    · exact assemble hxs hx
    · next y ys hy =>
      have asc : Ascending (y :: ys) := hy ▸ hb.sublist (List.dropWhile_sublist _)
      have above := fun z => lt_of_mem_atLeast (z := z) hb hy
      split
      · next eq =>
        rw [if_pos eq] at above
        exact assemble (ih hxs (List.pairwise_cons.1 asc).2) fun z hz =>
          (mem_merge.1 hz).elim (hx z) (above z)
      · next ne =>
        rw [if_neg ne] at above
        exact assemble (ih hxs asc) fun z hz => (mem_merge.1 hz).elim (hx z) (above z)

theorem ascending_mergePairs {ls : List (List α)} (h : ∀ l ∈ ls, Ascending l) :
    ∀ l ∈ mergePairs ls, Ascending l := by
  fun_induction mergePairs ls with
  | case1 a b rest ih =>
    intro l hl
    rcases List.mem_cons.1 hl with rfl | hl
    · exact ascending_merge (h a (by simp)) (h b (by simp))
    · exact ih (fun l hl => h l (by simp [hl])) l hl
  | case2 => exact h

theorem ascending_mergeAll {rounds : Nat} {ls : List (List α)} (h : ∀ l ∈ ls, Ascending l) :
    Ascending (mergeAll rounds ls) := by
  induction rounds generalizing ls with
  | zero =>
    rw [mergeAll]
    induction ls with
    | nil => exact .nil
    | cons l ls ih =>
      exact ascending_merge (h l (by simp)) (ih fun l hl => h l (by simp [hl]))
  | succ rounds ih => exact ih (ascending_mergePairs h)

theorem ascending_ofList (l : List α) : Ascending (ofList l) := by
  refine ascending_mergeAll fun m hm => ?_
  obtain ⟨x, -, rfl⟩ := List.mem_map.1 hm
  exact List.pairwise_singleton _ x

/-- A list that is ascending is left as it is. -/
theorem ofList_eq_self {l : List α} (hl : Ascending l) : ofList l = l :=
  List.Pairwise.eq_of_mem_iff (ascending_ofList l) hl fun _ => mem_ofList

/-! ## What two lists have in common -/

omit [DecidableEq α] in
/-- What is dropped for an element can be dropped for a greater one, too. -/
theorem atLeast_atLeast {x z : α} (le : ¬ z < x) (l : List α) :
    atLeast z (atLeast x l) = atLeast z l := by
  induction l with
  | nil => rfl
  | cons w ws ih =>
    by_cases below : w < x
    · have below' : w < z := by
        by_cases eq : x = z
        · exact eq ▸ below
        · exact trans_of (· < ·) below (lt_of_not_lt le eq)
      unfold atLeast at *
      rw [List.dropWhile_cons_of_pos (by simpa using below), ih,
        List.dropWhile_cons_of_pos (by simpa using below')]
    · unfold atLeast
      rw [List.dropWhile_cons_of_neg (by simpa using below)]

omit [DecidableEq α] [IsStrictTotalOrder α (· < ·)] in
theorem not_lt_of_atLeast_eq {x y : α} {l ys : List α} (h : atLeast x l = y :: ys) : ¬ y < x := by
  have head := List.head?_dropWhile_not (· < x) l
  rw [show l.dropWhile (· < x) = y :: ys from h] at head
  simpa using head

theorem not_lt_of_occursIn {y z : α} {ys zs : List α} (h : occursIn (z :: zs) (y :: ys) = true) :
    ¬ z < y := by
  rw [occursIn] at h
  by_cases below : y < z
  · exact fun lt => irrefl_of (· < ·) y (trans_of (· < ·) below lt)
  · rw [if_neg below, Bool.and_eq_true, decide_eq_true_eq] at h
    rw [h.1]
    exact irrefl_of (· < ·) z

/-- What two lists have in common is met on a walk along the second. -/
theorem occursIn_intersect_right (a b : List α) : occursIn (intersect a b) b = true := by
  induction a generalizing b with
  | nil => simp [intersect, occursIn]
  | cons x xs ih =>
    rw [intersect]
    cases rest : atLeast x b with
    | nil => simp [occursIn]
    | cons y ys =>
      by_cases eq : y = x
      · simp only [if_pos eq]
        rw [occursIn_cons, rest]
        simp [eq, ih]
      · simp only [if_neg eq]
        have later := ih (y :: ys)
        cases common : intersect xs (y :: ys) with
        | nil => simp [occursIn]
        | cons z zs =>
          rw [common] at later
          have ge : ¬ z < x := by
            intro lt
            have le := not_lt_of_atLeast_eq rest
            exact not_lt_of_occursIn later
              (trans_of (· < ·) lt (lt_of_not_lt le fun e => eq e.symm))
          rw [← rest, occursIn_cons, atLeast_atLeast ge, ← occursIn_cons] at later
          exact later

/-- And on a walk along the first. -/
theorem occursIn_intersect_left (a b : List α) : occursIn (intersect a b) a = true := by
  induction a generalizing b with
  | nil => simp [intersect, occursIn]
  | cons x xs ih =>
    rw [intersect]
    cases rest : atLeast x b with
    | nil => simp [occursIn]
    | cons y ys =>
      by_cases eq : y = x
      · simp only [if_pos eq]
        rw [occursIn, if_neg (irrefl_of (· < ·) x)]
        simp [ih]
      · simp only [if_neg eq]
        have here := occursIn_intersect_right xs (y :: ys)
        have later := ih (y :: ys)
        cases common : intersect xs (y :: ys) with
        | nil => simp [occursIn]
        | cons z zs =>
          rw [common] at here later
          have lt : x < z := by
            have first := lt_of_not_lt (not_lt_of_atLeast_eq rest) fun e => eq e.symm
            by_cases same : y = z
            · exact same ▸ first
            · exact trans_of (· < ·) first (lt_of_not_lt (not_lt_of_occursIn here) same)
          rw [occursIn, if_pos lt]
          exact later

theorem ascending_intersect {a b : List α} (ha : Ascending a) : Ascending (intersect a b) :=
  ha.sublist (sublist_of_occursIn (occursIn_intersect_left a b))

/-- Along ascending lists everything is found that is in both. -/
theorem mem_intersect {a b : List α} {x : α} (ha : Ascending a) (hb : Ascending b) :
    x ∈ intersect a b ↔ x ∈ a ∧ x ∈ b := by
  refine ⟨mem_of_mem_intersect, fun h => ?_⟩
  induction a generalizing b with
  | nil => cases h.1
  | cons y ys ih =>
    obtain ⟨hx, hx'⟩ := h
    obtain ⟨hy, hys⟩ := List.pairwise_cons.1 ha
    -- Nothing from `y` on is dropped from the other list.
    have ge : ¬ x < y := by
      rcases List.mem_cons.1 hx with rfl | hx
      · exact irrefl_of (· < ·) x
      · exact fun lt => asymm_of (· < ·) lt (hy x hx)
    have kept := mem_atLeast_of_not_lt ge hx'
    rw [intersect]
    cases rest : atLeast y b with
    | nil =>
      rw [rest] at kept
      cases kept
    | cons z zs =>
      have asc : Ascending (z :: zs) := rest ▸ hb.sublist (List.dropWhile_sublist _)
      rw [rest] at kept
      by_cases same : x = y
      · subst same
        by_cases eq : z = x
        · simp only [if_pos eq]
          exact List.mem_cons_self
        · have above := lt_of_mem_atLeast hb rest (by rwa [if_neg eq])
          exact (irrefl_of (· < ·) x above).elim
      have hx := (List.mem_cons.1 hx).resolve_left same
      by_cases eq : z = y
      · simp only [if_pos eq]
        have kept := (List.mem_cons.1 kept).resolve_left fun eq' => same (eq'.trans eq)
        exact List.mem_cons_of_mem _ (ih hys (List.pairwise_cons.1 asc).2 ⟨hx, kept⟩)
      · simp only [if_neg eq]
        exact ih hys asc ⟨hx, kept⟩

theorem occursIn_of_mem {small large : List α} (hs : Ascending small) (hl : Ascending large)
    (h : ∀ x ∈ small, x ∈ large) : occursIn small large = true := by
  fun_induction occursIn small large with
  | case1 => rfl
  | case2 x xs => exact (List.not_mem_nil (h x List.mem_cons_self)).elim
  | case3 x xs y ys below ih =>
    refine ih hs (List.pairwise_cons.1 hl).2 fun z hz => ?_
    refine (List.mem_cons.1 (h z hz)).resolve_left ?_
    rintro rfl
    rcases List.mem_cons.1 hz with rfl | hz
    · exact irrefl_of (· < ·) z below
    · exact asymm_of (· < ·) below ((List.pairwise_cons.1 hs).1 z hz)
  | case4 x xs y ys ge ih =>
    obtain ⟨hx, hxs⟩ := List.pairwise_cons.1 hs
    obtain ⟨hy, hys⟩ := List.pairwise_cons.1 hl
    obtain rfl : x = y := by
      refine (List.mem_cons.1 (h x List.mem_cons_self)).resolve_right ?_
      exact fun later => ge (hy x later)
    rw [decide_eq_true rfl, Bool.true_and]
    refine ih hxs hys fun z hz => ?_
    refine (List.mem_cons.1 (h z (List.mem_cons_of_mem _ hz))).resolve_left ?_
    rintro rfl
    exact irrefl_of (· < ·) z (hx z hz)

/-- Of ascending lists, one is found to be a subset of the other if all its elements are in it. -/
theorem subset_iff {small large : List α} (hs : Ascending small) (hl : Ascending large) :
    subset small large = true ↔ ∀ x ∈ small, x ∈ large :=
  ⟨mem_of_subset, fun h => subset_of_occursIn (occursIn_of_mem hs hl h)⟩

/-! ## The algebra of finite sets -/

variable {a b : List α}

omit [IsStrictTotalOrder α (· < ·)] in
theorem ascending_remove (ha : Ascending a) : Ascending (remove a b) :=
  ha.sublist (remove_sublist a b)

/-- Along ascending lists exactly the elements of the first are left that are not in the second. -/
theorem mem_remove {x : α} (ha : Ascending a) (hb : Ascending b) :
    x ∈ remove a b ↔ x ∈ a ∧ x ∉ b := by
  constructor
  · intro h
    exact ⟨mem_of_mem_remove h, not_mem_of_mem_remove ha hb h⟩
  · rintro ⟨hx, away⟩
    exact (mem_or_mem_remove hx).resolve_left away

/-- A subset that is taken out and put back in leaves the list as it was. -/
theorem merge_remove (ha : Ascending a) (hb : Ascending b) (within : ∀ x ∈ b, x ∈ a) :
    merge b (remove a b) = a := by
  have asc := ascending_merge hb (ascending_remove (b := b) ha)
  refine List.Pairwise.eq_of_mem_iff asc ha fun x => ?_
  rw [mem_merge, mem_remove ha hb]
  constructor
  · rintro (hx | ⟨hx, -⟩)
    · exact within x hx
    · exact hx
  · intro hx
    by_cases taken : x ∈ b
    · exact .inl taken
    · exact .inr ⟨hx, taken⟩

/-- The walks along ascending lists are the operations on the sets of their elements, in particular
a subset that is taken out and put back in leaves the list as it was. -/
theorem set_algebra (ha : Ascending a) (hb : Ascending b) :
    (Ascending (intersect a b) ∧ ∀ x, x ∈ intersect a b ↔ x ∈ a ∧ x ∈ b) ∧
    (Ascending (remove a b) ∧ ∀ x, x ∈ remove a b ↔ x ∈ a ∧ x ∉ b) ∧
    (Ascending (merge a b) ∧ ∀ x, x ∈ merge a b ↔ x ∈ a ∨ x ∈ b) ∧
    (subset a b = true ↔ ∀ x ∈ a, x ∈ b) ∧
    (subset b a = true → merge b (remove a b) = a) := by
  refine ⟨⟨ascending_intersect ha, fun x => mem_intersect ha hb⟩,
    ⟨ascending_remove ha, fun x => mem_remove ha hb⟩,
    ⟨ascending_merge ha hb, fun x => mem_merge⟩, subset_iff ha hb, fun within => ?_⟩
  exact merge_remove ha hb (mem_of_subset within)

/-- Taking `[3, 8]` out of `[1, 3, 5, 8]` leaves `[1, 5]`, and merged again the two are the whole. -/
theorem set_algebra_split : Ascending [1, 3, 5, 8] ∧ Ascending [3, 8] ∧
    subset [3, 8] [1, 3, 5, 8] = true ∧ intersect [1, 3, 5, 8] [3, 8] = [3, 8] ∧
    remove [1, 3, 5, 8] [3, 8] = [1, 5] ∧ merge [3, 8] [1, 5] = [1, 3, 5, 8] ∧
    ∀ x, x ∈ [1, 5] ↔ x ∈ [1, 3, 5, 8] ∧ x ∉ [3, 8] := by
  have whole : Ascending [1, 3, 5, 8] := by decide
  have part : Ascending [3, 8] := by decide
  have within : subset [3, 8] [1, 3, 5, 8] = true := by decide
  have rest : remove [1, 3, 5, 8] [3, 8] = [1, 5] := by decide
  obtain ⟨-, ⟨-, left⟩, -, -, again⟩ := set_algebra whole part
  rw [rest] at left again
  exact ⟨whole, part, within, by decide, rest, again within, left⟩

end Ascending

/-! ## The order of nodes -/

instance : IsStrictTotalOrder Node (· < ·) where
  irrefl a := UInt32.lt_irrefl a.code
  trans a b c := UInt32.lt_trans
  trichotomous a b hab hba := by
    have : a.code = b.code := UInt32.le_antisymm (UInt32.not_lt.1 hba) (UInt32.not_lt.1 hab)
    cases a; cases b; simp_all

end Criteria

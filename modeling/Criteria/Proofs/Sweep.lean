import Criteria.Proofs.Forest

/-!
# Sweeping is safe

What is reachable is closed under membership (`mem_reach`), so with a list a sweep keeps all lists
that it refers to. A swept store is valid, and the nodes whose lists are still there are those that
they were (`Valid.sweep`, `ValidNode.sweep`, `holds_sweep`).
-/

namespace Criteria

namespace Store

variable {v : Vocabulary} {p : Node → Bool} {s : Store} {n : Node} {l roots : List Node}
  {id threshold : Nat}

/-! ## What is reached -/

namespace Raw

variable {r : Raw}

/-- What is reached holds on to what was seen, contains the queue, and with a list that was not
seen before the lists of its members. -/
theorem mem_reach (r : Raw) (seen : Std.HashSet Nat) (front back : List Node) :
    (∀ id ∈ seen, id ∈ r.reach seen front back) ∧
      (∀ n ∈ front ++ back, n.isCombined = true → n.number ∈ r.reach seen front back) ∧
      ∀ id ∈ r.reach seen front back, id ∉ seen → ∀ m ∈ r.next id,
        m.number ∈ r.reach seen front back := by
  fun_induction reach r seen front back with
  | case1 seen => exact ⟨fun _ h => h, by simp, fun _ h h' => (h' h).elim⟩
  | case2 seen n back ih => simpa [or_comm] using ih
  | case3 seen n front back comb old ih =>
    obtain ⟨keeps, starts, closed⟩ := ih
    exact ⟨keeps, List.forall_mem_cons.2 ⟨fun _ => keeps _ old, starts⟩, closed⟩
  | case4 seen n front back comb new ih =>
    obtain ⟨keeps, starts, closed⟩ := ih
    have here := keeps n.number (by simp)
    refine ⟨fun id h => keeps id (by simp [h]), ?_, fun id h old m hm => ?_⟩
    · refine List.forall_mem_cons.2 ⟨fun _ => here, fun m hm => starts m ?_⟩
      rcases List.mem_append.1 hm with hm | hm
      · simp [hm]
      · simp [hm]
    · by_cases eq : n.number = id
      · subst eq
        obtain ⟨l, -, -, hc⟩ := mem_next.1 hm
        exact starts m (by simp [hm]) hc
      · exact closed id h (by simp [eq, old]) m hm
  | case5 seen n front back leaf ih =>
    obtain ⟨keeps, starts, closed⟩ := ih
    exact ⟨keeps, List.forall_mem_cons.2 ⟨fun comb => (leaf comb).elim, starts⟩, closed⟩

theorem number_mem_reachable (hn : n ∈ roots) (hc : n.isCombined = true) :
    n.number ∈ r.reachable roots :=
  (mem_reach r ∅ roots []).2.1 n (by simp [hn]) hc

theorem member_mem_reachable (h : id ∈ r.reachable roots) (hl : r.list? id = some l) {m : Node}
    (hm : m ∈ l) (hc : m.isCombined = true) : m.number ∈ r.reachable roots :=
  (mem_reach r ∅ roots []).2.2 id h (by simp) m (mem_next.2 ⟨l, hl, hm, hc⟩)

end Raw

/-! ## What is kept -/

theorem size_sweep : (s.sweep roots).2.size = s.size := s.coherent.size_sweep roots

theorem threshold_sweep : (s.sweep roots).2.threshold = s.threshold :=
  s.coherent.threshold_sweep roots

theorem list?_sweep : (s.sweep roots).2.list? id =
    if id ∈ s.reachable roots then s.list? id else none :=
  s.coherent.list?_sweep roots id

theorem list?_of_sweep (h : (s.sweep roots).2.list? id = some l) :
    id ∈ s.reachable roots ∧ s.list? id = some l := by
  rw [list?_sweep] at h
  split at h
  · next kept => exact ⟨kept, h⟩
  · cases h

theorem ValidNode.sweep (h : s.ValidNode v n)
    (kept : n.isCombined = true → n.number ∈ s.reachable roots) :
    (s.sweep roots).2.ValidNode v n := by
  cases h with
  | constant hn => exact .constant hn
  | leaf hn => exact .leaf hn
  | combined hk hl hc =>
    refine .combined hk ?_ hc
    rw [list?_sweep, if_pos (kept (Node.isCombined_of_connective? hk)), hl]

theorem Valid.sweep (hs : s.Valid v) : (s.sweep roots).2.Valid v where
  layered id l h m hm := hs.layered id l (list?_of_sweep h).2 m hm
  members id l h m hm := by
    obtain ⟨kept, hl⟩ := list?_of_sweep h
    exact (hs.members id l hl m hm).sweep (Raw.member_mem_reachable kept hl hm)
  size_le := size_sweep (s := s) ▸ hs.size_le

theorem sweepAbove_of_le (few : s.live ≤ threshold) :
    s.sweepAbove roots threshold = (false, s) := by
  have eq : s.toRaw.sweepAbove roots threshold = (false, s.toRaw) := if_pos few
  refine Prod.ext ?_ (eq_of_toRaw ?_)
  · show (s.toRaw.sweepAbove roots threshold).1 = _
    rw [eq]
  · show (s.toRaw.sweepAbove roots threshold).2 = _
    rw [eq]

theorem sweepAbove_of_lt (many : threshold < s.live) :
    s.sweepAbove roots threshold = (true, (s.sweep roots).2) := by
  have eq : s.toRaw.sweepAbove roots threshold = (true, (s.toRaw.sweep roots).2) :=
    if_neg (Nat.not_le_of_lt many)
  refine Prod.ext ?_ (eq_of_toRaw ?_)
  · show (s.toRaw.sweepAbove roots threshold).1 = _
    rw [eq]
  · show (s.toRaw.sweepAbove roots threshold).2 = _
    rw [eq]
    rfl

/-- What is kept means what it meant. -/
theorem holds_sweep (hs : s.Valid v) (hn : s.ValidNode v n)
    (kept : n.isCombined = true → n.number ∈ s.reachable roots) :
    (s.sweep roots).2.holds p n = s.holds p n :=
  (holds_of_list? hs.sweep (fun _ _ => rfl) (fun h => (list?_of_sweep h).2) (hn.sweep kept)).symm

end Store

namespace Forest

variable {f : Forest} {n : Node} {threshold : Nat}

/-- The forest that is left of a valid one. -/
theorem Valid.sweep (hf : f.Valid) : f.sweep.2.Valid where
  store := hf.store.sweep
  translator := hf.translator
  roots n hn := (hf.roots n hn).sweep (Store.Raw.number_mem_reachable hn)

theorem holds_sweep (hf : f.Valid) (hn : n ∈ f.roots) (r : Record) :
    f.sweep.2.holds r n = f.holds r n :=
  Store.holds_sweep hf.store (hf.roots n hn) (Store.Raw.number_mem_reachable hn)

theorem sweepAbove_of_le (few : f.store.live ≤ threshold) :
    (f.sweepAbove threshold).2 = f := by
  rw [sweepAbove, Store.sweepAbove_of_le few]

theorem sweepAbove_of_lt (many : threshold < f.store.live) :
    (f.sweepAbove threshold).2 = f.sweep.2 := by
  rw [sweepAbove, Store.sweepAbove_of_lt many, sweep]

/-- A sweep above a threshold is a sweep or nothing at all. -/
theorem sweepAbove_cases (f : Forest) (threshold : Nat) :
    (f.sweepAbove threshold).2 = f ∨ (f.sweepAbove threshold).2 = f.sweep.2 :=
  (Nat.lt_or_ge threshold f.store.live).symm.imp sweepAbove_of_le sweepAbove_of_lt

end Forest

end Criteria

import Mathlib.Data.Set.Card
import Criteria.Proofs.Recovery

/-!
# What a sweep reclaims

**Theorem (`sweep_exact`).** A sweep reclaims exactly the lists that are there and cannot be reached
from the roots, tells how many they are, and leaves every other list under its number. So in a valid
forest every node below a root has the members that it had before a sweep and is read back as the
same expression, and in a session it can still be handed in.

To be reached is the least relation that holds of the lists of the roots and goes from a list to the
lists of its members (`Store.Raw.Reaches`); a number that has no list may be reached but leads
nowhere. The marking of `Store.Raw.reach` has a queue and a set of seen numbers instead. It finds
nothing else, because whatever is closed under following members and contains both queue and seen
numbers contains the outcome (`reach_subset`), and misses nothing, because the outcome is closed in
this way itself (`mem_reach`). What the loop of the sweep releases and what it leaves are together
as many as were there (`Coherent.released_add_live`), and the count of tables that are in step is
the number of ids that have a list (`count_eq_ncard`).
-/

namespace Criteria

namespace Store

variable {roots l : List Node} {n : Node} {k : Connective} {id : Nat}

/-! ## Reaching -/

namespace Raw

variable {r : Raw}

/-- The numbers of the lists that are met from some roots, as ANDs or as ORs. -/
inductive Reaches (r : Raw) (roots : List Node) : Nat → Prop
  | root {n : Node} {k : Connective} : n ∈ roots → n.connective? = some k → Reaches r roots n.number
  | member {id : Nat} {l : List Node} {m : Node} {k : Connective} : Reaches r roots id →
      r.list? id = some l → m ∈ l → m.connective? = some k → Reaches r roots m.number

/-- A property of what is seen and queued that goes from a list to the lists of its members holds
of all that is reached. -/
theorem reach_subset {P : Nat → Prop}
    (closed : ∀ {id l m}, P id → r.list? id = some l → m ∈ l → m.isCombined = true → P m.number)
    (seen : Std.HashSet Nat) (front back : List Node) (hs : ∀ id ∈ seen, P id)
    (hq : ∀ n ∈ front ++ back, n.isCombined = true → P n.number) :
    ∀ id ∈ r.reach seen front back, P id := by
  fun_induction reach r seen front back with
  | case1 seen => exact hs
  | case2 seen n back ih => exact ih hs fun m hm => hq m (by simpa [or_comm] using hm)
  | case3 seen n front back comb old ih =>
    exact ih hs fun m hm => hq m (List.mem_cons_of_mem _ hm)
  | case4 seen n front back comb new ih =>
    have here : P n.number := hq n List.mem_cons_self comb
    apply ih
    · intro id h
      rcases Std.HashSet.mem_insert.1 h with eq | old
      · rwa [← beq_iff_eq.1 eq]
      · exact hs id old
    · intro m hm hc
      simp only [List.mem_append, List.mem_reverse] at hm
      rcases hm with hm | hm | hm
      · exact hq m (by simp [hm]) hc
      · obtain ⟨l, hl, member, -⟩ := mem_next.1 hm
        exact closed here hl member hc
      · exact hq m (by simp [hm]) hc
  | case5 seen n front back leaf ih =>
    exact ih hs fun m hm => hq m (List.mem_cons_of_mem _ hm)

theorem mem_reachable_iff : id ∈ r.reachable roots ↔ r.Reaches roots id := by
  constructor
  · apply reach_subset
    · intro id l m reached hl hm hc
      obtain ⟨k, hk⟩ := Node.exists_connective? hc
      exact reached.member hl hm hk
    · simp
    · intro n hn hc
      rw [List.append_nil] at hn
      obtain ⟨k, hk⟩ := Node.exists_connective? hc
      exact .root hn hk
  · intro reached
    induction reached with
    | root hn hk => exact number_mem_reachable hn (Node.isCombined_of_connective? hk)
    | member _ hl hm hk ih =>
      exact member_mem_reachable ih hl hm (Node.isCombined_of_connective? hk)

/-! ## Counting -/

/-- The numbers whose lists are there. -/
def lives (r : Raw) : Set Nat := {id | ∃ l, r.list? id = some l}

theorem finite_lives (r : Raw) : r.lives.Finite :=
  (Finset.range r.size).finite_toSet.subset fun _ ⟨_, hl⟩ =>
    Finset.mem_coe.2 (Finset.mem_range.2 (r.lt_size_of_list? hl))

theorem count_eq_ncard (r : Raw) : r.count = r.lives.ncard := by
  let ids := (List.range r.size).filter (Option.isSome ∘ r.list?)
  have all : (ids.toFinset : Set Nat) = r.lives := by
    ext id
    simp only [ids, List.coe_toFinset, Set.mem_ofPred_eq, List.mem_filter, List.mem_range,
      Function.comp_apply, Option.isSome_iff_exists, lives]
    exact ⟨And.right, fun ⟨l, hl⟩ => ⟨r.lt_size_of_list? hl, l, hl⟩⟩
  calc r.count = ids.length := by
        rw [count, ← Array.countP_toList, toList_entries, List.countP_map,
          List.countP_eq_length_filter]
    _ = ids.toFinset.card := (List.toFinset_card_of_nodup (List.nodup_range.filter _)).symm
    _ = r.lives.ncard := by rw [← all, Set.ncard_coe_finset]

end Raw

variable {s : Store}

theorem list?_sweep_of_reaches (h : s.Reaches roots id) :
    (s.sweep roots).2.list? id = s.list? id := by
  rw [list?_sweep, if_pos (Raw.mem_reachable_iff.2 h)]

theorem list?_sweep_of_not_reaches (h : ¬ s.Reaches roots id) :
    (s.sweep roots).2.list? id = none := by
  rw [list?_sweep, if_neg fun mem => h (Raw.mem_reachable_iff.1 mem)]

theorem live_eq_ncard (s : Store) : s.live = s.lives.ncard :=
  s.coherent.live_eq.trans s.count_eq_ncard

theorem lives_sweep : (s.sweep roots).2.lives = s.lives ∩ {id | s.Reaches roots id} := by
  ext id
  constructor
  · rintro ⟨l, hl⟩
    obtain ⟨kept, hl⟩ := list?_of_sweep hl
    exact ⟨⟨l, hl⟩, Raw.mem_reachable_iff.1 kept⟩
  · rintro ⟨⟨l, hl⟩, reached⟩
    exact ⟨l, (list?_sweep_of_reaches reached).trans hl⟩

/-- A sweep releases as many lists as are there and not reached. -/
theorem released_sweep (s : Store) (roots : List Node) :
    (s.sweep roots).1 = (s.lives \ {id | s.Reaches roots id}).ncard := by
  have split := Set.ncard_inter_add_ncard_sdiff_eq_ncard s.lives {id | s.Reaches roots id}
    s.finite_lives
  have all : (s.sweep roots).1 + (s.sweep roots).2.live = s.live :=
    s.coherent.released_add_live roots
  rw [live_eq_ncard, live_eq_ncard, lives_sweep] at all
  omega

end Store

/-! ## Nodes below the roots -/

namespace Forest

variable {f : Forest} {n : Node} {k : Connective}

/-- The roots, their members, the members of these, and so on. -/
inductive Below (f : Forest) : Node → Prop
  | root {n : Node} : n ∈ f.roots → Below f n
  | member {n m : Node} {k : Connective} {l : List Node} : Below f n → n.connective? = some k →
      f.store.list? n.number = some l → m ∈ l → Below f m

theorem Below.reaches (h : f.Below n) (hk : n.connective? = some k) :
    f.store.Reaches f.roots n.number := by
  induction h generalizing k with
  | root hn => exact .root hn hk
  | member _ hk' hl hm ih => exact (ih hk').member hl hm hk

theorem Below.validNode (h : f.Below n) (hf : f.Valid) : f.ValidNode n := by
  cases h with
  | root hn => exact hf.roots n hn
  | member _ _ hl hm => exact hf.store.members _ _ hl n hm

/-- What is below a root is still below it after a sweep. -/
theorem Below.sweep (h : f.Below n) : f.sweep.2.Below n := by
  induction h with
  | root hn => exact .root hn
  | member below hk hl hm ih =>
    have kept : f.sweep.2.store.list? _ = _ := Store.list?_sweep_of_reaches (below.reaches hk)
    exact ih.member hk (kept.trans hl) hm

theorem Below.contains (h : f.Below n) : f.Contains n := by
  cases h with
  | root hn => exact .inl hn
  | member _ _ hl hm => exact .inr ⟨_, _, hl, hm⟩

/-- A valid node of a forest can be handed in if it is a root or a member. -/
theorem ValidNode.usable {x : Session} (hn : x.forest.ValidNode n) (h : x.forest.Contains n) :
    x.Usable n := by
  cases hn with
  | constant hn => exact .constant hn
  | leaf code => exact .leaf code
  | combined hk hl _ => exact .combined (Node.isCombined_of_connective? hk) hl (.inr (.inr h))

/-- Some valid nodes are read back in turn, and from all forests that have `f` as a part as the same
expressions. -/
theorem PartOf.exists_mapM_express (hf : f.Valid) {ns : List Node} (hn : ∀ n ∈ ns, f.ValidNode n) :
    ∃ es t, ∀ g, f.PartOf g → ns.mapM express g = .ok es { g with translator := t } := by
  induction ns generalizing f with
  | nil => exact ⟨[], f.translator, fun g part => by rw [← part.translator_eq]; rfl⟩
  | cons n ns ih =>
    obtain ⟨e, t, head⟩ := exists_express hf (hn n List.mem_cons_self)
    -- Reading back changes what is remembered, so the rest is read from another forest.
    obtain ⟨valid, le, -⟩ := (ensures_express (r := fun _ => none)
      (hn n List.mem_cons_self)).of_ok hf (head f (.refl f))
    obtain ⟨es, t', tail⟩ := ih valid fun m hm =>
      validNode_of_extends le (hn m (List.mem_cons_of_mem _ hm))
    refine ⟨e :: es, t', fun g part => mapM_cons_of_ok (head g part) ?_⟩
    exact tail { g with translator := t }
      ⟨rfl, part.roots_eq, part.threshold_eq, part.size_le, part.list?_of⟩

end Forest

/-! ## Sweeping -/

/-- A sweep reclaims exactly the lists that are there and not reached from the roots, and tells how
many. In a valid forest all that is below a root stays valid, has its old members and is read back
as before, as are the roots in turn. The forest of a session is valid, and all that is below a root
can still be handed in. -/
theorem sweep_exact (f : Forest) :
    (∀ id l, f.store.list? id = some l → f.store.Reaches f.roots id →
      f.sweep.2.store.lookup id = .ok l) ∧
    (∀ id l, f.store.list? id = some l → ¬ f.store.Reaches f.roots id →
      f.sweep.2.store.lookup id = .error (.reclaimed id)) ∧
    (∀ id, f.store.list? id = none → f.sweep.2.store.lookup id = f.store.lookup id) ∧
    f.sweep.1 = {id | (∃ l, f.store.list? id = some l) ∧ ¬ f.store.Reaches f.roots id}.ncard ∧
    (f.Valid → let swept := f.sweep.2
      (∃ es t, Forest.expressRoots f = .ok es { f with translator := t } ∧
        Forest.expressRoots swept = .ok es { swept with translator := t }) ∧
      ∀ n, f.Below n →
        swept.ValidNode n ∧
        (n.isCombined = true → ∃ l, f.store.members n = .ok l ∧ swept.store.members n = .ok l) ∧
        ∃ e t, Forest.express n f = .ok e { f with translator := t } ∧
          Forest.express n swept = .ok e { swept with translator := t }) ∧
    ∀ x : Session, x.Reached → x.forest.Valid ∧
      ∀ n, x.forest.Below n → (x.next (Request.sweep.perform x.forest)).Usable n := by
  refine ⟨fun id l hl reached => ?_, fun id l hl lost => ?_, fun id gone => ?_, ?_, ?_, ?_⟩
  · exact Store.Raw.lookup_eq_ok_iff.2 ((Store.list?_sweep_of_reaches reached).trans hl)
  · apply Store.Raw.lookup_eq_reclaimed
    · exact Store.size_sweep (s := f.store) ▸ f.store.lt_size_of_list? hl
    · exact Store.list?_sweep_of_not_reaches lost
  · apply Store.Raw.lookup_congr Store.size_sweep
    rw [Store.list?_sweep, gone, ite_self]
  · exact Store.released_sweep f.store f.roots
  · intro hf swept
    have part : swept.PartOf f := .sweep f
    refine ⟨?_, fun n below => ?_⟩
    · obtain ⟨es, t, express⟩ := Forest.PartOf.exists_mapM_express hf.sweep hf.sweep.roots
      exact ⟨es, t, express _ part, express _ (.refl swept)⟩
    have valid : swept.ValidNode n := below.sweep.validNode hf.sweep
    refine ⟨valid, fun hc => ?_, ?_⟩
    · obtain ⟨k, hk⟩ := Node.exists_connective? hc
      obtain ⟨l, hl, -⟩ := valid.list? hk
      exact ⟨l, Store.members_eq_ok hk (part.list?_of hl), Store.members_eq_ok hk hl⟩
    · obtain ⟨e, t, express⟩ := Forest.PartOf.exists_express hf.sweep valid
      exact ⟨e, t, express _ part, express _ (.refl swept)⟩
  · intro x reached
    have hf : x.forest.Valid := reached.sound.forest
    refine ⟨hf, fun n below => ?_⟩
    exact Forest.ValidNode.usable (x := x.next (Request.sweep.perform x.forest))
      (below.sweep.validNode hf.sweep) below.sweep.contains

namespace Sample

/-- From the AND only its own list is reached. -/
theorem reaches_both {id : Nat} (h : deepStore.Reaches [both] id) : id = 0 := by
  induction h with
  | root hn _ =>
    obtain rfl := List.mem_singleton.1 hn
    rfl
  | member _ hl hm hk ih =>
    subst ih
    cases (show some [equal, known] = some _ from hl)
    rcases List.mem_pair.1 hm with rfl | rfl
    · exact absurd (Node.isCombined_of_connective? hk) (by decide)
    · exact absurd (Node.isCombined_of_connective? hk) (by decide)

/-- With the AND as the only root, the sweep reclaims the one list of the nested node. -/
theorem deep_exact :
    deep.forest.sweep.2.store.lookup 0 = .ok [equal, known] ∧
    deep.forest.sweep.2.store.lookup 1 = .error (.reclaimed 1) ∧
    deep.forest.sweep.2.store.lookup 2 = .error (.neverIssued 2) ∧
    deep.forest.sweep.1 = 1 ∧
    (deep.next (Request.sweep.perform deep.forest)).Usable both ∧
    (deep.next (Request.sweep.perform deep.forest)).Usable known := by
  obtain ⟨kept, lost, absent, count, -, later⟩ := sweep_exact deep.forest
  obtain ⟨-, stays⟩ := later deep reached_deep
  have root : deep.forest.Below both := .root List.mem_cons_self
  have lost_iff : {id | (∃ l, deep.forest.store.list? id = some l) ∧
      ¬ deep.forest.store.Reaches deep.forest.roots id} = {1} := by
    ext id
    constructor
    · rintro ⟨⟨l, hl⟩, unreached⟩
      have lt : id < 2 := deepStore.lt_size_of_list? hl
      have ne : id ≠ 0 := by
        rintro rfl
        exact unreached (.root (k := .and) (n := both) List.mem_cons_self rfl)
      exact Set.mem_singleton_iff.2 (by omega)
    · rintro rfl
      exact ⟨⟨_, rfl⟩, fun reached => absurd (reaches_both reached) (by decide)⟩
  rw [lost_iff, Set.ncard_singleton] at count
  refine ⟨kept 0 _ rfl (.root (k := .and) (n := both) List.mem_cons_self rfl),
    lost 1 _ rfl fun reached => absurd (reaches_both reached) (by decide), ?_, count,
    stays both root, stays known (root.member (k := .and) rfl rfl (by simp))⟩
  rw [absent 2 rfl]
  rfl

end Sample

end Criteria

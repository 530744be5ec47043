import Mathlib.Algebra.Order.BigOperators.Group.List
import Criteria.Forest.Inspect
import Criteria.Proofs.Reachability
import Criteria.Proofs.Separation

/-!
# Traversals meet the same nodes

**Theorem (`Session.Reached.traversals_agree`).** Of a usable node, the leaves that are collected
are the codes of the leaves of its expression, in order and each of them once. The panorama shows
the node first and each node that occurs in it exactly once. Its nodes that are not combined are the
leaves that are collected, and the numbers of the others are those that a sweep would keep for the
node. The depth of the node is the depth of its expression.

Leaves and depth are found by recursion over the members, so they are made of a node from the bottom
up (`leavesWithin_eq`, `depthWithin_eq`), as its expression is. The panorama goes along a queue and
stops when its fuel is spent. What it shows is the outcome of a walk over a graph
(`Forest.visit`), of which three things hold: no node comes up twice, none comes up that is not met
along members, and what comes up is closed under members if the fuel suffices. It does: what is in
the queue and what the lists of nodes that are still to come can put into it (`Store.pending`) is
never more than the fuel that is left, as a list is met at most once as an AND and at most once as
an OR.
-/

namespace Criteria

variable {v : Vocabulary} {s : Store} {k : Connective} {m n : Node} {l : List Node} {fuel : Nat}

/-! ## From the bottom up -/

namespace Store

/-- The codes of the constants and leaves below a node, the last member first. -/
def leafCodes (s : Store) (n : Node) : List Node :=
  s.fold ⟨fun c => [.ofConstant c], fun n => [n], fun _ ls => ls.reverse.flatten⟩ n

theorem leafCodes_of_encodes (code : v.Encodes n) : s.leafCodes n = [n] := fold_of_encodes code

theorem leafCodes_combined (hs : s.Valid v) (hk : n.connective? = some k)
    (hl : s.list? n.number = some l) : s.leafCodes n = (l.reverse.map s.leafCodes).flatten := by
  rw [List.map_reverse]
  exact fold_combined hs hk hl

/-- The codes below a node are those of what occurs in it and has no members. -/
theorem mem_leafCodes_iff (hs : s.Valid v) (hn : s.ValidNode v n) :
    m ∈ s.leafCodes n ↔ m.isCombined = false ∧ s.Occurs m n := by
  have alone : ∀ {n : Node}, n.isCombined = false → s.leafCodes n = [n] →
      (m ∈ s.leafCodes n ↔ m.isCombined = false ∧ s.Occurs m n) := by
    intro n plain codes
    rw [codes, List.mem_singleton]
    constructor
    · rintro rfl
      exact ⟨plain, .self⟩
    · rintro ⟨-, occurs⟩
      exact occurs.eq_of_connective? (Node.connective?_eq_none_iff.2 plain)
  refine hs.induction (P := fun n => m ∈ s.leafCodes n ↔ m.isCombined = false ∧ s.Occurs m n)
    ?constant ?leaf ?combined hn
  case constant =>
    intro c
    exact alone (by cases c <;> rfl) (fold_ofConstant c)
  case leaf =>
    intro n l code
    exact alone (Node.not_isCombined_of_isLeaf code.isLeaf)
      (leafCodes_of_encodes (Vocabulary.encodes_iff.2 ⟨l, code⟩))
  case combined =>
    intro n k l _ hk hl members
    rw [leafCodes_combined hs hk hl, ← List.flatMap_def, List.mem_flatMap]
    constructor
    · rintro ⟨m', hm', mem⟩
      rw [List.mem_reverse] at hm'
      obtain ⟨plain, occurs⟩ := (members m' hm').2.2.1 mem
      exact ⟨plain, .member hk hl hm' occurs⟩
    · rintro ⟨plain, occurs⟩
      rcases occurs.cases_of_list? hl with rfl | ⟨m', hm', occurs⟩
      · rw [Node.isCombined_of_connective? hk] at plain
        cases plain
      · exact ⟨m', List.mem_reverse.2 hm', (members m' hm').2.2.2 ⟨plain, occurs⟩⟩

/-- The leaves of what a node spells are what its leaves spell. -/
theorem mem_leaves_spell_iff (hs : s.Valid v) (hn : s.ValidNode v n) {e : Expression} :
    e ∈ (s.spell v n).leaves ↔ ∃ m ∈ s.leafCodes n, s.spell v m = e := by
  refine hs.induction (P := fun n => e ∈ (s.spell v n).leaves ↔ ∃ m ∈ s.leafCodes n,
    s.spell v m = e) ?constant ?leaf ?combined hn
  case constant =>
    intro c
    rw [spell_ofConstant, show s.leafCodes (.ofConstant c) = [.ofConstant c] from fold_ofConstant c]
    simp [Expression.leaves, eq_comm]
  case leaf =>
    intro n l code
    rw [spell_of_codes code, leafCodes_of_encodes (Vocabulary.encodes_iff.2 ⟨l, code⟩)]
    simp [Expression.leaves, spell_of_codes code, eq_comm]
  case combined =>
    intro n k l _ hk hl members
    rw [spell_combined hs hk hl, Expression.mem_leaves_combined, leafCodes_combined hs hk hl,
      ← List.flatMap_def]
    constructor
    · rintro ⟨e', he', mem⟩
      obtain ⟨m', hm', rfl⟩ := List.mem_map.1 he'
      obtain ⟨m, hm, spells⟩ := (members m' hm').2.2.1 mem
      exact ⟨m, List.mem_flatMap.2 ⟨m', List.mem_reverse.2 hm', hm⟩, spells⟩
    · rintro ⟨m, hm, spells⟩
      obtain ⟨m', hm', mem⟩ := List.mem_flatMap.1 hm
      rw [List.mem_reverse] at hm'
      exact ⟨_, List.mem_map.2 ⟨m', hm', rfl⟩, (members m' hm').2.2.2 ⟨m, mem, spells⟩⟩

end Store

theorem Expression.maxDepth_eq (es : List Expression) :
    maxDepth es = (es.map depth).foldr max 0 := by
  induction es with
  | nil => rfl
  | cons e es ih => rw [maxDepth, ih, List.map_cons, List.foldr_cons]

namespace Forest

/-- Collecting goes along the recursion of the node. -/
theorem leavesWithin_eq (hs : s.Valid v) (hn : s.ValidNode v n) (deep : n.level < fuel) :
    leavesWithin s fuel n = .ok (s.leafCodes n) := by
  refine hs.induction (P := fun n => ∀ fuel, n.level < fuel →
    leavesWithin s fuel n = .ok (s.leafCodes n)) ?constant ?leaf ?combined hn fuel deep
  case constant =>
    rintro c (- | fuel) deep
    · cases deep
    · cases c <;> rfl
  case leaf =>
    rintro n l code (- | fuel) deep
    · cases deep
    · have leaf := code.isLeaf
      rw [leavesWithin, Node.not_isCombined_of_isLeaf leaf, Node.isInvalid,
        decide_eq_false (Node.ne_invalid_of_isLeaf leaf),
        Store.leafCodes_of_encodes (Vocabulary.encodes_iff.2 ⟨l, code⟩)]
      rfl
  case combined =>
    rintro n k l - hk hl members (- | fuel) deep
    · cases deep
    · have each : l.reverse.mapM (leavesWithin s fuel) =
          l.reverse.mapM fun m => pure (s.leafCodes m) := mapM_congr fun m hm => by
        obtain ⟨-, lower, ih⟩ := members m (List.mem_reverse.1 hm)
        exact ih fuel (by omega)
      rw [leavesWithin, if_pos (Node.isCombined_of_connective? hk), Store.members_eq_ok hk hl,
        Store.leafCodes_combined hs hk hl]
      show (l.reverse.mapM (leavesWithin s fuel) >>= fun ls => pure ls.flatten) = _
      rw [each, List.mapM_pure]
      rfl

/-- So does measuring. -/
theorem depthWithin_eq (hs : s.Valid v) (hn : s.ValidNode v n) (deep : n.level < fuel) :
    depthWithin s fuel n = .ok (s.spell v n).depth := by
  refine hs.induction (P := fun n => ∀ fuel, n.level < fuel →
    depthWithin s fuel n = .ok (s.spell v n).depth) ?constant ?leaf ?combined hn fuel deep
  case constant =>
    rintro c (- | fuel) deep
    · cases deep
    · rw [Store.spell_ofConstant]
      cases c <;> rfl
  case leaf =>
    rintro n l code (- | fuel) deep
    · cases deep
    · rw [depthWithin, Node.not_isCombined_of_isLeaf code.isLeaf, Store.spell_of_codes code]
      rfl
  case combined =>
    rintro n k l - hk hl members (- | fuel) deep
    · cases deep
    · have each : l.mapM (depthWithin s fuel) =
          l.mapM fun m => pure (s.spell v m).depth := mapM_congr fun m hm => by
        obtain ⟨-, lower, ih⟩ := members m hm
        exact ih fuel (by omega)
      rw [depthWithin, if_pos (Node.isCombined_of_connective? hk), Store.members_eq_ok hk hl,
        Store.spell_combined hs hk hl, Expression.depth, Expression.maxDepth_eq, List.map_map]
      show (l.mapM (depthWithin s fuel) >>= fun ds => pure (ds.foldr max 0 + 1)) = _
      rw [each, List.mapM_pure, Nat.add_comm]
      rfl

variable {f : Forest}

theorem leaves_eq (hf : f.Valid) (hn : f.ValidNode n) :
    f.leaves n = .ok (Ascending.ofList (f.store.leafCodes n)) := by
  rw [leaves, leavesWithin_eq hf.store hn hn.level_lt]
  rfl

theorem depth_eq (hf : f.Valid) (hn : f.ValidNode n) : f.depth n = .ok (f.spell n).depth :=
  depthWithin_eq hf.store hn hn.level_lt

/-- A valid node without members is the code of what it spells. -/
theorem encode_spell_of_plain (hf : f.Valid) (hn : f.ValidNode n) (plain : n.isCombined = false) :
    ∃ g, encode (f.spell n) f = .ok n g := by
  have constant : ∀ c, ∃ g, encode (f.spell (.ofConstant c)) f = .ok (.ofConstant c) g := by
    intro c
    rw [spell, Store.spell_ofConstant, encode]
    exact ⟨f, rfl⟩
  cases hn with
  | constant hn =>
    rcases Node.isConstant_iff.1 hn with rfl | rfl
    · exact constant .all
    · exact constant .none
  | leaf code =>
    obtain ⟨l, code⟩ := Vocabulary.encodes_iff.1 code
    obtain ⟨t, run, -⟩ := encode_of_codes hf.translator code
    exact ⟨_, by rw [spell, Store.spell_of_codes code]; exact run⟩
  | combined hk =>
    rw [Node.isCombined_of_connective? hk] at plain
    cases plain

/-- The codes below a node are those of the leaves of what it spells. -/
theorem mem_leafCodes_iff_encode (hf : f.Valid) (hn : f.ValidNode n) :
    m ∈ f.store.leafCodes n ↔ ∃ e ∈ (f.spell n).leaves, ∃ g, encode e f = .ok m g := by
  have planted : ∀ m ∈ f.store.leafCodes n, ∃ g, encode (f.spell m) f = .ok m g := by
    intro m hm
    obtain ⟨plain, occurs⟩ := (Store.mem_leafCodes_iff hf.store hn).1 hm
    exact encode_spell_of_plain hf (occurs.validNode hf.store hn) plain
  constructor
  · intro hm
    exact ⟨f.spell m, (Store.mem_leaves_spell_iff hf.store hn).2 ⟨m, hm, rfl⟩, planted m hm⟩
  · rintro ⟨e, he, g, run⟩
    obtain ⟨m', hm', rfl⟩ := (Store.mem_leaves_spell_iff hf.store hn).1 he
    obtain ⟨g', run'⟩ := planted m' hm'
    cases run.symm.trans run'
    exact hm'

/-! ## Along a queue -/

/-- The nodes that come up from a queue, each of them once: after a node come those next to it. -/
def visit (next : Node → List Node) : Nat → List Node → List Node → List Node
  | 0, _, _ => []
  | _ + 1, _, [] => []
  | fuel + 1, seen, n :: queue =>
    if seen.contains n then visit next fuel seen queue
    else n :: visit next fuel (n :: seen) (queue ++ next n)

section Visit

variable {next : Node → List Node} {seen queue : List Node}

/-- No node comes up twice, and none that is seen already. -/
theorem nodup_visit : (visit next fuel seen queue).Nodup ∧
    ∀ m ∈ visit next fuel seen queue, m ∉ seen := by
  fun_induction visit next fuel seen queue with
  | case1 => simp
  | case2 => simp
  | case3 fuel seen n queue old ih => exact ih
  | case4 fuel seen n queue new ih =>
    obtain ⟨nodup, unseen⟩ := ih
    simp only [List.mem_cons, not_or] at unseen
    constructor
    · exact List.nodup_cons.2 ⟨fun again => (unseen n again).1 rfl, nodup⟩
    · intro m hm
      rcases List.mem_cons.1 hm with rfl | hm
      · simpa using new
      · exact (unseen m hm).2

/-- What is true of the queue, and of what is next to a node if of the node, is true of all that
comes up. -/
theorem visit_subset {P : Node → Prop} (closed : ∀ {n m}, P n → m ∈ next n → P m)
    (hq : ∀ n ∈ queue, P n) : ∀ m ∈ visit next fuel seen queue, P m := by
  fun_induction visit next fuel seen queue with
  | case1 => simp
  | case2 => simp
  | case3 fuel seen n queue old ih => exact ih (List.forall_mem_cons.1 hq).2
  | case4 fuel seen n queue new ih =>
    obtain ⟨hn, hq⟩ := List.forall_mem_cons.1 hq
    refine List.forall_mem_cons.2 ⟨hn, ih (List.forall_mem_append.2 ⟨hq, fun m => closed hn⟩)⟩

/-- With enough fuel the whole queue comes up, and with a node what is next to it. What is still to
come is bounded by what is in the queue and by `pending`, which is spent as nodes are seen. -/
theorem visit_closed {P : Node → Prop} {pending : List Node → Nat}
    (closed : ∀ {n m}, P n → m ∈ next n → P m)
    (spent : ∀ {seen n}, P n → n ∉ seen → pending (n :: seen) + (next n).length ≤ pending seen)
    (hq : ∀ n ∈ queue, P n) (enough : queue.length + pending seen ≤ fuel) :
    (∀ n ∈ queue, n ∈ seen ∨ n ∈ visit next fuel seen queue) ∧
      ∀ n ∈ visit next fuel seen queue, ∀ m ∈ next n,
        m ∈ seen ∨ m ∈ visit next fuel seen queue := by
  fun_induction visit next fuel seen queue with
  | case1 seen queue =>
    obtain rfl : queue = [] := List.length_eq_zero_iff.1 (by omega)
    simp
  | case2 => simp
  | case3 fuel seen n queue old ih =>
    rw [List.length_cons] at enough
    obtain ⟨first, rest⟩ := ih (List.forall_mem_cons.1 hq).2 (by omega)
    exact ⟨List.forall_mem_cons.2 ⟨.inl (by simpa using old), first⟩, rest⟩
  | case4 fuel seen n queue new ih =>
    obtain ⟨hn, hq⟩ := List.forall_mem_cons.1 hq
    have less := spent hn (by simpa using new)
    rw [List.length_cons] at enough
    obtain ⟨first, rest⟩ := ih (List.forall_mem_append.2 ⟨hq, fun m => closed hn⟩)
      (by rw [List.length_append]; omega)
    -- The node itself is no longer new to what comes later, but it has just come up.
    have shift : ∀ {m}, m ∈ n :: seen ∨ m ∈ visit next fuel (n :: seen) (queue ++ next n) →
        m ∈ seen ∨ m ∈ n :: visit next fuel (n :: seen) (queue ++ next n) := by
      intro m h
      rw [List.mem_cons] at h ⊢
      tauto
    constructor
    · refine List.forall_mem_cons.2 ⟨.inr List.mem_cons_self, fun m hm => ?_⟩
      exact shift (first m (List.mem_append_left _ hm))
    · refine List.forall_mem_cons.2 ⟨fun m hm => ?_, fun m hm m' hm' => ?_⟩
      · exact shift (first m (List.mem_append_right _ hm))
      · exact shift (rest m hm m' hm')

end Visit

end Forest

/-! ## Enough fuel -/

namespace Store

/-- What is next to a node: its members. -/
def next (s : Store) (n : Node) : List Node := if n.isCombined then s.listOf n else []

theorem next_combined (hk : n.connective? = some k) (hl : s.list? n.number = some l) :
    s.next n = l := by
  rw [next, if_pos (Node.isCombined_of_connective? hk), listOf, hl, Option.getD_some]

theorem next_of_plain (plain : n.isCombined = false) : s.next n = [] := by
  rw [next, plain, if_neg (by simp)]

/-- What is next to a valid node occurs in it. -/
theorem occurs_of_mem_next (hn : s.ValidNode v n) (hm : m ∈ s.next n) :
    s.Occurs m n := by
  cases hc : n.isCombined with
  | false =>
    rw [next_of_plain hc] at hm
    cases hm
  | true =>
    obtain ⟨k, hk⟩ := Node.exists_connective? hc
    obtain ⟨l, hl, -⟩ := hn.list? hk
    rw [next_combined hk hl] at hm
    exact .member hk hl hm .self

/-- The two ways in which a list of each number can be met. -/
def uses (s : Store) : List (Connective × Nat) :=
  (List.range s.size).flatMap fun id => [(.and, id), (.or, id)]

/-- How many members the list of a number has. -/
def lengthOf (s : Store) (id : Nat) : Nat := ((s.list? id).getD []).length

/-- How many nodes can still come up when some are seen. -/
def pending (s : Store) (seen : List Node) : Nat :=
  (s.uses.map fun p => if .combined p.1 p.2 ∈ seen then 0 else s.lengthOf p.2).sum

theorem sum_map_add_le {α : Type} {f g : α → Nat} {a : α} {d : Nat} {as : List α}
    (le : ∀ a ∈ as, f a ≤ g a) (ha : a ∈ as) (more : f a + d ≤ g a) :
    (as.map f).sum + d ≤ (as.map g).sum := by
  induction as with
  | nil => cases ha
  | cons b as ih =>
    rw [List.forall_mem_cons] at le
    rw [List.map_cons, List.sum_cons, List.map_cons, List.sum_cons]
    rcases List.mem_cons.1 ha with rfl | ha
    · have := List.sum_le_sum le.2
      omega
    · have := ih le.2 ha
      have := le.1
      omega

/-- A node that is seen brings no more nodes than are no longer pending. -/
theorem pending_cons_add_le {seen : List Node} (hn : s.ValidNode v n) (new : n ∉ seen) :
    s.pending (n :: seen) + (s.next n).length ≤ s.pending seen := by
  have le : ∀ p ∈ s.uses,
      (if Node.combined p.1 p.2 ∈ n :: seen then 0 else s.lengthOf p.2) ≤
        if Node.combined p.1 p.2 ∈ seen then 0 else s.lengthOf p.2 := by
    intro p _
    by_cases old : Node.combined p.1 p.2 ∈ seen
    · rw [if_pos old, if_pos (List.mem_cons_of_mem _ old)]
    · rw [if_neg old]
      split
      · exact Nat.zero_le _
      · exact Nat.le_refl _
  cases hc : n.isCombined with
  | false =>
    rw [next_of_plain hc, List.length_nil, Nat.add_zero]
    exact List.sum_le_sum le
  | true =>
    obtain ⟨k, hk⟩ := Node.exists_connective? hc
    obtain ⟨l, hl, -⟩ := hn.list? hk
    have code : Node.combined k n.number = n := Node.combined_number hk
    have use : (k, n.number) ∈ s.uses := by
      refine List.mem_flatMap.2 ⟨n.number, List.mem_range.2 (s.lt_size_of_list? hl), ?_⟩
      cases k <;> simp
    refine sum_map_add_le le use ?_
    rw [code, if_pos List.mem_cons_self, if_neg new, next_combined hk hl, lengthOf, hl]
    exact (Nat.zero_add _).le

theorem sum_lengthOf (s : Store) : ((List.range s.size).map s.lengthOf).sum =
    s.entries.foldl (fun total entry => total + (entry.getD []).length) 0 := by
  have lengths : (List.range s.size).map s.lengthOf =
      s.entries.toList.map fun entry => (entry.getD []).length := by
    rw [Raw.toList_entries, List.map_map]
    rfl
  rw [lengths, ← Array.foldl_toList, List.sum_eq_foldl, List.foldl_map]

/-- Before any node is seen, every list is pending twice. -/
theorem pending_nil (s : Store) : s.pending [] =
    2 * s.entries.foldl (fun total entry => total + (entry.getD []).length) 0 := by
  rw [← sum_lengthOf, pending, uses]
  induction List.range s.size with
  | nil => rfl
  | cons id ids ih =>
    rw [List.flatMap_cons, List.map_append, List.sum_append, ih, List.map_cons, List.sum_cons]
    simp
    omega

end Store

/-! ## Looking -/

namespace Forest

variable {f : Forest}

/-- What a sight tells of its node is so: how it joins its members, which these are, and how deep
it nests. -/
structure Sight.Tells (w : Sight) (v : Vocabulary) (s : Store) : Prop where
  connective?_eq : w.connective? = w.node.connective?
  members_eq : w.members = s.next w.node
  depth_eq : w.depth = (s.spell v w.node).depth

/-- There is a text for every node, if only for a fault. -/
theorem exists_display (n : Node) (f : Forest) :
    ∃ text t, display n f = .ok text { f with translator := t } := by
  unfold display
  split
  · exact ⟨_, f.translator, rfl⟩
  split
  · split
    · exact ⟨_, f.translator, rfl⟩
    · exact ⟨_, f.translator, rfl⟩
  · cases run : Translator.decode n f.translator with
    | ok e t => exact ⟨e.text, t, by simp only [translate, run]⟩
    | error fault t => exact ⟨faultText n fault, t, by simp only [translate, run]⟩

theorem exists_look (hs : s.Valid v) (hn : s.ValidNode v n) (eq : f.store = s) :
    ∃ w t, look n f = .ok w { f with translator := t } ∧ w.node = n ∧ w.Tells v s := by
  subst eq
  have kind : n.kind = .ok n.connective? := by
    rw [Node.kind, Node.isInvalid, decide_eq_false hn.ne_invalid]
    rfl
  obtain ⟨text, t, shown⟩ := exists_display n f
  have measured : depth { f with translator := t } n = .ok (f.store.spell v n).depth :=
    depthWithin_eq hs hn (Nat.lt_succ_of_le (Nat.le_succ_of_le hn.level_le))
  let w : Sight := ⟨n, n.connective?, text, f.store.next n, (f.store.spell v n).depth⟩
  -- Once the members are read, the text and the depth are left.
  have rest : (do
      let shown ← display n
      let depth ← ofExcept ((← get).depth n)
      return ⟨n, n.connective?, shown, f.store.next n, depth⟩ : Attempt Forest Sight) f =
        .ok w { f with translator := t } := by
    refine (bind_eq_of_ok shown).trans ?_
    show (ofExcept (depth { f with translator := t } n) >>= fun depth => pure _) _ = _
    rw [measured]
    rfl
  refine ⟨w, t, ?_, rfl, rfl, rfl, rfl⟩
  unfold look
  rw [kind]
  cases hc : n.isCombined with
  | false =>
    rw [Store.next_of_plain hc] at rest
    exact rest
  | true =>
    obtain ⟨k, hk⟩ := Node.exists_connective? hc
    obtain ⟨l, hl, -⟩ := hn.list? hk
    rw [Store.next_combined hk hl] at rest
    show (ofExcept (f.store.members n) >>= fun members => _) f = _
    rw [Store.members_eq_ok hk hl]
    exact rest

/-- The nodes that a panorama shows. -/
def Panorama.nodes (p : Panorama) : List Node := p.sights.map (·.node)

/-- Looking at all nodes of a queue is a visit to what is next to them. -/
theorem exists_lookAll (fuel : Nat) (seen queue : List Node) (hs : s.Valid v)
    (hq : ∀ n ∈ queue, s.ValidNode v n) (eq : f.store = s) :
    ∃ ws t, lookAll fuel seen queue f = .ok ws { f with translator := t } ∧
      ws.map (·.node) = visit s.next fuel seen queue ∧ ∀ w ∈ ws, w.Tells v s := by
  induction fuel generalizing seen queue f with
  | zero => exact ⟨[], f.translator, rfl, rfl, by simp⟩
  | succ fuel ih =>
    cases queue with
    | nil => exact ⟨[], f.translator, rfl, rfl, by simp⟩
    | cons n queue =>
      obtain ⟨hn, later⟩ := List.forall_mem_cons.1 hq
      rw [lookAll, visit]
      by_cases old : seen.contains n = true
      · rw [if_pos old, if_pos old]
        exact ih seen queue later eq
      · rw [if_neg old, if_neg old]
        obtain ⟨w, t, looked, rfl, tells⟩ := exists_look hs hn eq
        have members : ∀ m ∈ w.members, s.ValidNode v m := by
          intro m hm
          rw [tells.members_eq] at hm
          exact (Store.occurs_of_mem_next hn hm).validNode hs hn
        obtain ⟨ws, u, run, nodes, told⟩ :=
          ih (w.node :: seen) (queue ++ w.members) (List.forall_mem_append.2 ⟨later, members⟩)
            (f := { f with translator := t }) eq
        refine ⟨w :: ws, u, ?_, ?_, List.forall_mem_cons.2 ⟨tells, told⟩⟩
        · exact (bind_eq_of_ok looked).trans ((bind_eq_of_ok run).trans rfl)
        · rw [List.map_cons, nodes, tells.members_eq]

/-- A panorama shows what occurs in its root, the root first and each node once, and tells of each
what there is to tell. -/
structure Panorama.Shows (p : Panorama) (v : Vocabulary) (s : Store) : Prop where
  first : p.nodes.head? = some p.root
  nodup : p.nodes.Nodup
  mem_iff : ∀ m, m ∈ p.nodes ↔ s.Occurs m p.root
  tells : ∀ w ∈ p.sights, w.Tells v s

/-- There is a panorama of every valid node. -/
theorem exists_lookBelow (hf : f.Valid) (hn : f.ValidNode n) :
    ∃ p t, lookBelow n f = .ok p { f with translator := t } ∧ p.root = n ∧
      p.Shows f.vocabulary f.store := by
  have hq : ∀ m ∈ [n], f.store.ValidNode f.vocabulary m := List.forall_mem_singleton.2 hn
  obtain ⟨ws, t, run, nodes, tells⟩ :=
    exists_lookAll f.span [] [n] hf.store hq rfl
  have inside : ∀ m ∈ ws.map (·.node), f.store.Occurs m n := by
    rw [nodes]
    refine visit_subset (P := fun m => f.store.Occurs m n) ?_ (List.forall_mem_singleton.2 .self)
    intro m m' occurs hm'
    exact (Store.occurs_of_mem_next (occurs.validNode hf.store hn) hm').trans occurs
  have enough : [n].length + f.store.pending [] ≤ f.span := by
    rw [Store.pending_nil, span, List.length_singleton, Nat.add_comm]
  obtain ⟨first, closed⟩ := visit_closed (P := f.store.ValidNode f.vocabulary)
    (fun hn hm => (Store.occurs_of_mem_next hn hm).validNode hf.store hn)
    Store.pending_cons_add_le hq enough
  have root : n ∈ ws.map (·.node) := by
    rw [nodes]
    exact (first n (List.mem_singleton_self n)).resolve_left List.not_mem_nil
  have complete : ∀ {m n' : Node}, f.store.Occurs m n' → n' ∈ ws.map (·.node) →
      m ∈ ws.map (·.node) := by
    intro m n' occurs
    induction occurs with
    | self => exact id
    | member hk hl hm _ ih =>
      intro here
      apply ih
      rw [nodes] at here ⊢
      rw [← Store.next_combined hk hl] at hm
      exact (closed _ here _ hm).resolve_left List.not_mem_nil
  refine ⟨⟨n, ws⟩, t, (bind_eq_of_ok run).trans rfl, rfl, ?_, ?_, ?_, tells⟩
  · show (ws.map (·.node)).head? = some n
    rw [nodes, span, visit]
    rfl
  · show (ws.map (·.node)).Nodup
    rw [nodes]
    exact nodup_visit.1
  · intro m
    exact ⟨inside m, fun occurs => complete occurs root⟩

end Forest

/-! ## Marking -/

namespace Store

variable {roots roots' : List Node} {id : Nat}

theorem Raw.Reaches.trans (h : s.Reaches roots' id)
    (each : ∀ r ∈ roots', ∀ k, r.connective? = some k → s.Reaches roots r.number) :
    s.Reaches roots id := by
  induction h with
  | root hr hk => exact each _ hr _ hk
  | member _ hl hm hk ih => exact ih.member hl hm hk

/-- From one node the lists of all combined nodes are reached that occur in it. -/
theorem reaches_singleton_iff :
    s.Reaches [n] id ↔ ∃ m, s.Occurs m n ∧ m.isCombined = true ∧ m.number = id := by
  constructor
  · intro h
    induction h with
    | root hm hk =>
      obtain rfl := List.mem_singleton.1 hm
      exact ⟨_, .self, Node.isCombined_of_connective? hk, rfl⟩
    | member _ hl hm hk ih =>
      obtain ⟨m, occurs, hc, rfl⟩ := ih
      obtain ⟨k', hk'⟩ := Node.exists_connective? hc
      have inner : s.Occurs _ m := .member hk' hl hm .self
      exact ⟨_, inner.trans occurs, Node.isCombined_of_connective? hk, rfl⟩
  · rintro ⟨m, occurs, hc, rfl⟩
    obtain ⟨k, hk⟩ := Node.exists_connective? hc
    induction occurs with
    | self => exact .root List.mem_cons_self hk
    | member hk' hl hm _ ih =>
      refine ih.trans fun r hr k hk => ?_
      obtain rfl := List.mem_singleton.1 hr
      exact (Raw.Reaches.root List.mem_cons_self hk').member hl hm hk

end Store

/-! ## In sessions -/

/-- Collecting, looking, marking and measuring meet the nodes that reading back meets. -/
theorem Session.Reached.traversals_agree {x : Session} (h : x.Reached) (usable : x.Usable n) :
    ∃ e t ls p u,
      Forest.express n x.forest = .ok e { x.forest with translator := t } ∧
      x.forest.leaves n = .ok ls ∧ Ascending ls ∧
      (∀ m, m ∈ ls ↔ ∃ l ∈ e.leaves, ∃ g, Forest.encode l x.forest = .ok m g) ∧
      Forest.lookBelow n x.forest = .ok p { x.forest with translator := u } ∧ p.root = n ∧
      p.Shows x.forest.vocabulary x.forest.store ∧
      (p.nodes.filter fun m => !m.isCombined).Perm ls ∧
      (∀ id, id ∈ x.forest.store.reachable [n] ↔
        ∃ m ∈ p.nodes, m.isCombined = true ∧ m.number = id) ∧
      x.forest.depth n = .ok e.depth := by
  have hf := h.sound.forest
  have hn := h.sound.validNode usable
  obtain ⟨t, read, -⟩ := Forest.exists_express hf hn
  obtain ⟨p, u, looked, rfl, shows⟩ := Forest.exists_lookBelow hf hn
  have asc := Ascending.ascending_ofList (x.forest.store.leafCodes p.root)
  refine ⟨_, t, _, p, u, read, Forest.leaves_eq hf hn, asc, fun m => ?_, looked, rfl, shows, ?_,
    fun id => ?_, Forest.depth_eq hf hn⟩
  · rw [Ascending.mem_ofList]
    exact Forest.mem_leafCodes_iff_encode hf hn
  · refine (List.perm_ext_iff_of_nodup (shows.nodup.filter _) asc.nodup).2 fun m => ?_
    rw [List.mem_filter, shows.mem_iff, Ascending.mem_ofList, Store.mem_leafCodes_iff hf.store hn,
      Bool.not_eq_true', and_comm]
  · rw [Store.Raw.mem_reachable_iff, Store.reaches_singleton_iff]
    simp only [shows.mem_iff]

namespace Sample

theorem occurs_nested : deep.forest.store.Occurs m nested ↔ m ∈ [nested, equal, either, known] := by
  have whole : nested.connective? = some .and := by decide
  have part : either.connective? = some .or := by decide
  have list : deep.forest.store.list? nested.number = some [equal, either] := rfl
  have list' : deep.forest.store.list? either.number = some [equal, known] := rfl
  have leaf : ∀ n ∈ [equal, known], deep.forest.store.Occurs m n → m = n := by
    intro n hn occurs
    refine occurs.eq_of_connective? ?_
    rcases List.mem_pair.1 hn with rfl | rfl <;> decide
  have inner : ∀ m ∈ [equal, known], deep.forest.store.Occurs m either := fun m hm =>
    .member part list' hm .self
  constructor
  · intro occurs
    rcases occurs.cases_of_list? list with rfl | ⟨n, hn, occurs⟩
    · decide
    rcases List.mem_pair.1 hn with rfl | rfl
    · rw [leaf equal (by decide) occurs]
      decide
    rcases occurs.cases_of_list? list' with rfl | ⟨n, hn, occurs⟩
    · decide
    · rw [leaf n hn occurs]
      rcases List.mem_pair.1 hn with rfl | rfl <;> decide
  · intro hm
    simp only [List.mem_cons, List.not_mem_nil, or_false] at hm
    rcases hm with rfl | rfl | rfl | rfl
    · exact .self
    · exact .member whole list (by decide) .self
    · exact .member whole list (by decide) .self
    · exact .member whole list (by decide) (inner known (by decide))

/-- In `a = x AND (a = x OR a IS NOT UNKNOWN)` all traversals meet two leaves and two lists. -/
theorem nested_traversed : ∃ e t p u,
    Forest.express nested deep.forest = .ok e { deep.forest with translator := t } ∧
    deep.forest.leaves nested = .ok [equal, known] ∧
    (∃ l ∈ e.leaves, ∃ g, Forest.encode l deep.forest = .ok known g) ∧
    Forest.lookBelow nested deep.forest = .ok p { deep.forest with translator := u } ∧
    p.nodes.Perm [nested, equal, either, known] ∧
    (p.nodes.filter fun m => !m.isCombined).Perm [equal, known] ∧
    0 ∈ deep.forest.store.reachable [nested] ∧ deep.forest.depth nested = .ok 2 ∧ e.depth = 2 := by
  obtain ⟨e, t, ls, p, u, read, leaves, -, codes, looked, root, shows, plain, marked, depth⟩ :=
    reached_deep.traversals_agree usable_deep.2.1
  have collected : deep.forest.leaves nested = .ok [equal, known] := rfl
  have measured : deep.forest.depth nested = .ok 2 := rfl
  cases collected.symm.trans leaves
  have nodes : p.nodes.Perm [nested, equal, either, known] := by
    refine (List.perm_ext_iff_of_nodup shows.nodup (by decide)).2 fun m => ?_
    rw [shows.mem_iff, root, occurs_nested]
  refine ⟨e, t, p, u, read, collected, (codes known).1 (by decide), looked, nodes, plain, ?_,
    measured, Except.ok.inj (depth.symm.trans measured)⟩
  exact (marked 0).2 ⟨either, nodes.mem_iff.2 (by decide), by decide, by decide⟩

end Sample

end Criteria

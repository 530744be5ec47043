import Criteria.Proofs.Irreducible
import Criteria.Proofs.Repetition.Pruning

/-!
# Pruning leaves nothing to prune

**Theorem (`reduces_pruneWithin`).** What a node is pruned to under some assumptions is a constant
or irreducible under them.

Pruning may look at a member under assumptions that no longer hold good when its siblings have been
pruned. But then the whole has become lighter, and goes round again. Comparisons bear two and
unknown checks one (`Node.heft`): members and pairs of members only ever give way to what bears
less, also where two comparisons with an argument are replaced by the checks that both arguments are
known. So a node that comes up again is the one that the last round began with, and in this round no
member and no pair has changed: all that was asked in it was asked of the node as it is.
-/

namespace Criteria

/-- What a leaf bears as far as pruning goes. -/
def Node.heft (n : Node) : Nat := if n.isUnknownCheck then 1 else 2

theorem Node.one_le_heft (n : Node) : 1 ≤ n.heft := by
  unfold heft
  split <;> decide

namespace Store

open Node (heft one_le_heft)

variable {v : Vocabulary} {s t : Store} {k : Connective} {n n' : Node} {l l' : List Node}
  {known : List Node} {c : Nat}

/-- A node bears at most twice as much as it bears leaves. -/
theorem heft_le_two_mul (hs : s.Valid v) (hn : s.ValidNode v n) :
    s.load heft n ≤ 2 * s.occurrences n := by
  refine hs.induction (P := fun n => s.load heft n ≤ 2 * s.occurrences n) ?constant ?leaf
    ?combined hn
  case constant =>
    intro c
    rw [load_of_isConstant (by cases c <;> rfl)]
    exact Nat.zero_le _
  case leaf =>
    intro n l code
    have code := Vocabulary.encodes_iff.2 ⟨l, code⟩
    rw [load_of_encodes code, occurrences_of_encodes code, heft]
    split <;> decide
  case combined =>
    intro n k l _ hk hl members
    rw [load_combined hs hk hl, occurrences_combined hs hk hl]
    clear hl
    induction l with
    | nil => exact Nat.le_refl 0
    | cons m l ih =>
      rw [List.forall_mem_cons] at members
      have := ih members.2
      have := members.1.2.2
      rw [loads_cons, total_cons]
      omega

/-- There is more effort to spend on a node than it bears. -/
theorem heft_lt_effort (hs : s.Valid v) (hn : s.ValidNode v n) : s.load heft n < s.effort n := by
  have twice := heft_le_two_mul hs hn
  have count := occurrences_le_leafCount hs (.refl s) hn
  let width := s.size + s.leafCount n + 2
  have two : 2 ≤ width := Nat.le_add_left 2 _
  have wide : 2 * width ≤ width * width * width * width := by
    calc 2 * width ≤ width * width := Nat.mul_le_mul_right width two
      _ ≤ width * width * width := Nat.le_mul_of_pos_right _ (by omega)
      _ ≤ width * width * width * width := Nat.le_mul_of_pos_right _ (by omega)
  have effort : s.effort n = outOfReach + width * width * width * width := rfl
  have enough : 0 < outOfReach := by decide
  omega

/-- A valid node that is not constant and bears `c` at most. -/
structure Inner (v : Vocabulary) (s : Store) (c : Nat) (n : Node) : Prop where
  valid : s.ValidNode v n
  inconstant : n.isConstant = false
  le : s.load heft n ≤ c

namespace Inner

theorem of_extends (h : s.Inner v c n) (hs : s.Valid v) (le : s.Extends t) : t.Inner v c n :=
  ⟨h.valid.mono le, h.inconstant, (load_of_extends hs le h.valid).le.trans h.le⟩

end Inner

/-- What became of a node that bore `c`. -/
structure Pruned (v : Vocabulary) (s : Store) (known : List Node) (c : Nat) (n n' : Node) :
    Prop where
  valid : s.ValidNode v n'
  lighter : n' = n ∨ s.load heft n' < c
  final : n'.isConstant = true ∨ s.Irreducible known n'

theorem Pruned.mono (hs : s.Valid v) (le : s.Extends t) (h : s.Pruned v known c n n') :
    t.Pruned v known c n n' where
  valid := h.valid.mono le
  lighter := by
    rw [load_of_extends hs le h.valid]
    exact h.lighter
  final := h.final.imp_right fun irreducible => irreducible.mono hs le h.valid

/-- What became of members that bore `c` together. If they are still the same, nothing was found
that tells of them, given that what they give to each other is there. -/
structure MembersPruned (v : Vocabulary) (s : Store) (k : Connective) (known : List Node) (c : Nat)
    (there : Prop) (l l' : List Node) : Prop where
  valid : ∀ m ∈ l', s.ValidNode v m
  lighter : l' = l ∧ (there → s.Standing k known l) ∨ s.loads heft l' < c

/-- A member that was pruned next to others, and then the others next to what became of it. -/
theorem MembersPruned.cons {c' : Nat} {there there' : Prop} {as as' : List Node}
    (hn : n.isConstant = false) (bears : s.load heft n ≤ c) (bears' : s.loads heft l ≤ c')
    (others : s.Premises k l as') (head : s.Pruned v (known ++ as') c n n')
    (gives : n' = n → s.Premises k [n] as)
    (tail : s.MembersPruned v k (known ++ as) c' there l l') (given : there) :
    s.MembersPruned v k known (c + c') there' (n :: l) (n' :: l') := by
  refine ⟨List.forall_mem_cons.2 ⟨head.valid, tail.valid⟩, ?_⟩
  rw [loads_cons]
  rcases head.lighter with rfl | lighter
  · rcases tail.lighter with ⟨rfl, standing⟩ | lighter'
    · have irreducible := head.final.resolve_left (Bool.eq_false_iff.1 hn)
      exact .inl ⟨rfl, fun _ => (Standing.cons_iff (gives rfl) others).2
        ⟨irreducible, standing given⟩⟩
    · exact .inr (Nat.add_lt_add_of_le_of_lt bears lighter')
  · have no_more : s.loads heft l' ≤ c' := by
      rcases tail.lighter with ⟨rfl, -⟩ | lighter'
      · exact bears'
      · exact lighter'.le
    exact .inr (Nat.add_lt_add_of_lt_of_le lighter no_more)

/-- What became of a node that bore `c`: something lighter, or the node itself, and then `unchanged`
is true. -/
structure Lightened (v : Vocabulary) (s : Store) (c : Nat) (unchanged : Prop) (n n' : Node) :
    Prop where
  valid : s.ValidNode v n'
  lighter : n' = n ∧ unchanged ∨ s.load heft n' < c

theorem Lightened.constant {unchanged : Prop} (h : n'.isConstant = true) (bears : 1 ≤ c) :
    s.Lightened v c unchanged n n' where
  valid := .constant h
  lighter := .inr (by rw [load_of_isConstant h]; exact bears)

theorem Lightened.load_le {unchanged : Prop} (hs : s.Valid v) (le : s.Extends t)
    (hn : s.ValidNode v n) (h : t.Lightened v (s.load heft n) unchanged n n') :
    t.load heft n' ≤ s.load heft n := by
  rcases h.lighter with ⟨rfl, -⟩ | lighter
  · exact (load_of_extends hs le hn).le
  · exact lighter.le

/-- A node that gives way to another, which is lighter and bears no more leaves. -/
structure Sheds (s : Store) (n : Node) (t : Store) (n' : Node) : Prop where
  lighter : t.load heft n' < s.load heft n
  no_more : t.occurrences n' ≤ s.occurrences n

theorem Sheds.constant (h : n'.isConstant = true) (bears : 1 ≤ s.load heft n) :
    s.Sheds n t n' where
  lighter := by
    rw [load_of_isConstant h]
    exact bears
  no_more := by
    rw [occurrences_of_isConstant h]
    exact Nat.zero_le _

end Store

namespace Pass

open Node (heft one_le_heft)
open Store (Inner Pruned MembersPruned Lightened Retained Standing Irreducible)

variable {v : Vocabulary} {w : Work} {k : Connective} {n m : Node} {l known : List Node}
  {p : Node → List Node → Pass Node} {c most rounds fuel : Nat} {α : Type}

/-- Passes grow stores by lists of valid nodes, and may fail in any way. -/
abbrev growing (v : Vocabulary) : Growth Failure Work := (Work.growth v).lenient

theorem ensures_ask {f : Store → Except Fault α} {Q : α → Work → Prop}
    (h : w.store.Valid v → ∀ a, f w.store = .ok a → Q a w) :
    (growing v).Ensures (read f) w Q := by
  obtain ⟨s, budget⟩ := w
  intro hw
  rw [read, build, Build.read]
  cases eq : f s with
  | ok a => exact ⟨hw, .refl s, h hw a eq⟩
  | error fault => exact ⟨hw, .refl s, trivial⟩

/-- What is known of an answer that a repeated computation gives. -/
theorem ensures_of_repeats {x y : Pass α} {Q Q' : α → Work → Prop}
    (h : (growing v).Ensures x w Q) (h' : (Work.repetition v).Repeats x y w Q') :
    (growing v).Ensures x w fun a w => Q a w ∧ Q' a w := by
  intro hw
  cases run : x w with
  | ok a w' =>
    obtain ⟨valid, le, hQ⟩ := h.of_ok hw run
    exact ⟨valid, le, hQ, (h' hw a w' run).2.2.1⟩
  | error e w' => exact h.of_error hw run

/-- Pruning makes nodes that bear `most` at most lighter, or finds nothing to prune. -/
def Reduces (v : Vocabulary) (most : Nat) (p : Node → List Node → Pass Node) : Prop :=
  ∀ {w : Work} {n : Node} {known : List Node}, w.store.ValidNode v n →
    w.store.load heft n ≤ most → (growing v).Ensures (p n known) w fun n' w' =>
      w'.store.Pruned v known (w.store.load heft n) n n'

/-! ## Members -/

/-- What was built can be built again and is there. -/
theorem ensures_build_again {x : Build α} {Q : α → Store → Prop}
    (recurs : Build.repetition.Recurs x) (h : (Store.growth v).Ensures x w.store Q) :
    (growing v).Ensures (build x) w fun a w => Q a w.store ∧ x w.store = .ok a w.store := by
  refine (ensures_build (Q := fun a t => Q a t ∧ x t = .ok a t) fun hs => ?_).lenient
  cases run : x w.store with
  | ok a t =>
    obtain ⟨valid, le, hQ⟩ := h.of_ok hs run
    exact ⟨valid, le, hQ, Build.run_again recurs run (.refl t)⟩
  | error e t => exact h.of_error hs run

/-- What a member gives is there once it is asked for. -/
theorem ensures_premises (hm : w.store.ValidNode v m) :
    (growing v).Ensures (premise k m) w fun p w =>
      m.isConstant = false → w.store.Premises k [m] p.toList := by
  cases k with
  | and =>
    refine .pure fun _ inconstant => ?_
    have ne : m ≠ .all := by
      rintro rfl
      cases inconstant
    rw [if_neg ne]
    rfl
  | or =>
    unfold premise
    simp only
    split
    · next plain =>
      refine .pure fun _ inconstant => ?_
      rw [inconstant, Bool.or_false] at plain
      have inner : m.isLeaf = false := by
        rw [Bool.eq_false_iff]
        intro leaf
        rw [Node.not_isCombined_of_isLeaf leaf] at plain
        cases plain
      show List.Forall₂ _ (List.filter _ [m]) []
      rw [List.filter_cons_of_neg (by simp [inner]), List.filter_nil]
      exact .nil
    · next leaf =>
      rw [Bool.or_eq_true, not_or] at leaf
      have built := Store.ensures_complement
        (Store.Means.of_valid (r := fun _ => none) (c := True) hm)
      refine (ensures_build_again (Build.recurs_complement m) built).map
        fun a w' _ _ h inconstant => ?_
      have leaf : m.isLeaf = true := (hm.isLeaf_or_isCombined inconstant).resolve_right leaf.1
      show List.Forall₂ _ (List.filter _ [m]) [a]
      rw [List.filter_cons_of_pos (by simpa using leaf), List.filter_nil]
      exact .cons h.2 .nil

theorem reduces_pruneFrom (hp : Reduces v most p) {pending : List Pending}
    (hm : w.store.Inner v most m) (each : ∀ x ∈ pending, w.store.Inner v most x.member)
    (given : ∀ x ∈ pending, w.store.Premises k [x.member] x.premise.toList) :
    (growing v).Ensures (pruneFrom p k known m pending) w fun out w' => ∀ l ∈ out,
      w'.store.MembersPruned v k known (w.store.loads heft (m :: pending.map (·.member)))
        (pending = [] → ∃ as, w'.store.Premises k [m] as) (m :: pending.map (·.member)) l := by
  induction pending generalizing w m known with
  | nil =>
    rw [pruneFrom]
    refine (hp hm.valid hm.le).bind fun m' w' _ _ pruned => .pure fun _ l hl => ?_
    split at hl
    · cases hl
    cases hl
    refine ⟨by simpa using pruned.valid, ?_⟩
    rcases pruned.lighter with rfl | lighter
    · refine .inl ⟨rfl, fun there => ?_⟩
      obtain ⟨as, premised⟩ := there rfl
      have irreducible := pruned.final.resolve_left (Bool.eq_false_iff.1 hm.inconstant)
      rw [List.map_nil, Standing.cons_iff premised Store.premises_nil, List.append_nil] at *
      exact ⟨irreducible, .nil⟩
    · exact .inr lighter
  | cons next rest ih =>
    rw [pruneFrom]
    refine .assuming fun hw => (hp hm.valid hm.le).bind fun m' w₁ hw₁ le₁ pruned => ?_
    split
    · exact .pure fun _ l hl => by cases hl
    refine ensures_check.lenient.bind fun _ w₂ _ le₂ _ => ?_
    refine (ensures_premises (pruned.valid.mono le₂)).bind fun x w₃ hw₃ le₃ premised => ?_
    have later : w₁.store.Extends w₃.store := le₂.trans le₃
    have le : w.store.Extends w₃.store := le₁.trans later
    have each₃ : ∀ x ∈ next :: rest, w₃.store.Inner v most x.member := fun x hx =>
      (each x hx).of_extends hw le
    have given₃ : ∀ x ∈ next :: rest, w₃.store.Premises k [x.member] x.premise.toList :=
      fun x hx => (given x hx).mono le
    refine (ih (each₃ next List.mem_cons_self)
      (fun x hx => each₃ x (List.mem_cons_of_mem _ hx))
      fun x hx => given₃ x (List.mem_cons_of_mem _ hx)).map fun out w₄ hw₄ le₄ hout l hl => ?_
    obtain ⟨l', hl', rfl⟩ := Option.map_eq_some_iff.1 hl
    have others := hout l' hl'
    have up : w.store.Extends w₄.store := le.trans le₄
    have bears := Store.load_of_extends (f := heft) hw up hm.valid
    have valid : ∀ y ∈ (next :: rest).map (·.member), w.store.ValidNode v y := fun y hy => by
      obtain ⟨x, hx, rfl⟩ := List.mem_map.1 hy
      exact (each x hx).valid
    have bears' := Store.loads_of_extends (f := heft) hw up valid
    have given₄ : ∀ x ∈ next :: rest, w₄.store.Premises k [x.member] x.premise.toList :=
      fun x hx => (given₃ x hx).mono le₄
    rw [Store.loads_cons]
    rw [← List.map_cons, Store.loads_of_extends hw le valid] at others
    refine .cons hm.inconstant bears.le bears'.le (premises_pending given₄)
      (pruned.mono hw₁ (later.trans le₄)) ?_ others fun _ => ⟨_, given₄ next List.mem_cons_self⟩
    rintro rfl
    exact (premised hm.inconstant).mono le₄

/-- What each member gives is there before the first of them is pruned. -/
theorem ensures_pending (each : ∀ x ∈ l, w.store.ValidNode v x ∧ x.isConstant = false) :
    (growing v).Ensures (l.mapM fun n => return (⟨n, ← premise k n⟩ : Pending)) w
      fun pending w => pending.map (·.member) = l ∧
        ∀ x ∈ pending, w.store.Premises k [x.member] x.premise.toList :=
  .map_mapM (P := fun n (w : Work) => w.store.ValidNode v n ∧ n.isConstant = false)
    (fun _ _ _ _ le h => ⟨h.1.mono le, h.2⟩) (fun _ _ _ _ le h => h.mono le)
    (fun _ _ _ hn => (ensures_premises hn.1).bind fun _ _ _ _ premised => .pure fun _ =>
      ⟨rfl, premised hn.2⟩) each

theorem reduces_pruneMembers (hp : Reduces v most p) (each : ∀ x ∈ l, w.store.Inner v most x) :
    (growing v).Ensures (pruneMembers p k known l) w fun out w' => ∀ l' ∈ out,
      w'.store.MembersPruned v k known (w.store.loads heft l) (2 ≤ l.length) l l' := by
  cases l with
  | nil =>
    refine .pure fun _ l' hl' => ?_
    cases hl'
    exact ⟨by simp, .inl ⟨rfl, fun _ => .nil⟩⟩
  | cons m rest =>
    rw [pruneMembers]
    refine .assuming fun hw => ensures_check.lenient.bind fun _ w₁ hw₁ le₁ _ => ?_
    have later : ∀ x ∈ rest, w₁.store.ValidNode v x ∧ x.isConstant = false := fun x hx => by
      have inner := (each x (List.mem_cons_of_mem m hx)).of_extends hw le₁
      exact ⟨inner.valid, inner.inconstant⟩
    refine (ensures_pending later).bind fun pending w₂ hw₂ le₂ h => ?_
    obtain ⟨members, given⟩ := h
    have le : w.store.Extends w₂.store := le₁.trans le₂
    have each₂ : ∀ x ∈ m :: rest, w₂.store.Inner v most x := fun x hx =>
      (each x hx).of_extends hw le
    have bears : w₂.store.loads heft (m :: rest) = w.store.loads heft (m :: rest) :=
      Store.loads_of_extends hw le fun x hx => (each x hx).valid
    have run : (growing v).Ensures (pruneFrom p k known m pending) w₂ _ :=
      reduces_pruneFrom hp (each₂ m List.mem_cons_self)
        (fun x hx => each₂ _ (List.mem_cons_of_mem m (members ▸ List.mem_map_of_mem hx))) given
    refine run.mono fun out w₃ _ _ hout l' hl' => ?_
    have pruned := hout l' hl'
    rw [members, bears] at pruned
    refine ⟨pruned.valid, pruned.lighter.imp_left fun h => ⟨h.1, fun two => h.2 fun none => ?_⟩⟩
    rw [none] at members
    rw [← members] at two
    simp at two

/-! ## Advice -/

/-- If no pair is found that calls for a change, there is none; and arguments take the place of
comparisons only. -/
theorem ensures_findPartner_retained {before between : List Node} :
    (growing v).Ensures (findPartner k n before between l) w fun out w =>
      (out = none → ∀ r ∈ l, w.store.advise k n r = .ok .retainBoth) ∧
      ∀ f ∈ out, f.advice = .replaceByKnown → f.left.isUnknownCheck = false := by
  induction l generalizing w between with
  | nil => exact .pure fun _ => ⟨fun _ => by simp, by simp⟩
  | cons r after ih =>
    rw [findPartner]
    refine ensures_check.lenient.bind fun _ w₁ _ _ _ => ?_
    have asked : (growing v).Ensures (read (·.advise k n r)) w₁ fun advice w =>
        w.store.advise k n r = .ok advice := ensures_ask fun _ _ eq => eq
    refine asked.bind fun advice w₂ _ _ advised => ?_
    split
    · next retain =>
      subst retain
      refine ih.mono fun out w₃ _ le h => ⟨fun none => ?_, h.2⟩
      exact List.forall_mem_cons.2
        ⟨Store.lasting_advise k n r _ _ _ (Store.Extends.partOf le) advised, h.1 none⟩
    · refine .pure fun _ => ⟨by simp, fun f hf replace => ?_⟩
      cases hf
      have replace : advice = .replaceByKnown := replace
      exact (Store.of_advise_replaceByKnown (replace ▸ advised)).2.2.1

theorem ensures_findPair_retained {before : List Node} :
    (growing v).Ensures (findPair k before l) w fun out w =>
      (out = none → w.store.Retained k l) ∧
      ∀ f ∈ out, f.advice = .replaceByKnown → f.left.isUnknownCheck = false := by
  induction l generalizing w before with
  | nil => exact .pure fun _ => ⟨fun _ => .nil, by simp⟩
  | cons n rest ih =>
    rw [findPair]
    refine ensures_findPartner_retained.bind fun out w₁ _ _ partners => ?_
    cases out with
    | some f => exact .pure fun _ => ⟨by simp, partners.2⟩
    | none =>
      refine ih.mono fun out w₂ _ le h => ⟨fun none => ?_, h.2⟩
      refine List.pairwise_cons.2 ⟨fun r hr => ?_, h.1 none⟩
      exact Store.lasting_advise k n r _ _ _ (Store.Extends.partOf le) (partners.1 rfl r hr)

/-- What a pair leaves is lighter than the pair. -/
theorem reduces_kept {f : Finding} (splits : f.Splits k l)
    (compares : f.advice = .replaceByKnown → f.left.isUnknownCheck = false)
    (inner : ∀ x ∈ l, w.store.ValidNode v x ∧ x.isConstant = false) :
    (growing v).Ensures f.kept w fun kept w' => (∀ x ∈ f.others ++ kept, w'.store.ValidNode v x) ∧
      w'.store.loads heft (f.others ++ kept) < w.store.loads heft l := by
  refine .assuming fun hw => ?_
  have inner : ∀ x ∈ f.left :: f.right :: f.others,
      w.store.ValidNode v x ∧ x.isConstant = false := fun x hx =>
    inner x (splits.perm.mem_iff.1 hx)
  rw [List.forall_mem_cons, List.forall_mem_cons] at inner
  obtain ⟨left, right, others⟩ := inner
  have bears : ∀ {x : Node}, w.store.ValidNode v x ∧ x.isConstant = false →
      1 ≤ w.store.load heft x := fun h => Store.one_le_load one_le_heft hw h.1 h.2
  have := bears left
  have := bears right
  -- What takes the place of the pair is valid and bears less than the pair.
  have place : ∀ (kept : List Node) {w' : Work}, w.store.Extends w'.store →
      (∀ x ∈ kept, w'.store.ValidNode v x) →
      w'.store.loads heft kept < w.store.load heft f.left + w.store.load heft f.right →
      (∀ x ∈ f.others ++ kept, w'.store.ValidNode v x) ∧
        w'.store.loads heft (f.others ++ kept) < w.store.loads heft l := by
    intro kept w' le valid less
    refine ⟨fun x hx => ?_, ?_⟩
    · exact (List.mem_append.1 hx).elim (fun hx => (others x hx).1.mono le) (valid x)
    · rw [← Store.loads_perm splits.perm, Store.loads_append, Store.loads_cons, Store.loads_cons,
        Store.loads_of_extends hw le fun x hx => (others x hx).1]
      omega
  have keepLeft := place [f.left] (.refl w.store)
    (List.forall_mem_singleton.2 left.1) (by rw [Store.loads_cons, Store.loads_nil]; omega)
  unfold Finding.kept
  cases advice : f.advice with
  | removeLeft =>
    exact .pure fun _ => place [f.right] (.refl w.store)
      (List.forall_mem_singleton.2 right.1) (by rw [Store.loads_cons, Store.loads_nil]; omega)
  | removeBoth =>
    exact .pure fun _ => place [] (.refl w.store) (by simp)
      (by rw [Store.loads_nil]; omega)
  | replaceByKnown =>
    have code := left.1.encodes_of_isLeaf (splits.leaves advice).2
    have light : ∀ m : Node, m.isUnknownCheck = true → m.heft ≤ 1 := fun m check => by
      rw [heft, if_pos check]
    have two : w.store.load heft f.left = 2 := by
      rw [Store.load_of_encodes code, heft, compares advice]
      rfl
    have known := Store.ensures_knownCheck_load (s := w.store) light code
    refine ((ensures_build known).lenient).bind fun m w' _ le hm => .pure fun _ => ?_
    refine place _ le (List.forall_mem_singleton.2 hm.1) ?_
    rw [Store.loads_cons, Store.loads_nil]
    omega
  | retainBoth => exact .pure fun _ => keepLeft
  | removeRight => exact .pure fun _ => keepLeft
  | removeEither => exact .pure fun _ => keepLeft
  | alwaysTrue => exact .pure fun _ => keepLeft
  | neverTrue => exact .pure fun _ => keepLeft

theorem ensures_members_list (hn : w.store.ValidNode v n) (hk : n.connective? = some k) :
    (growing v).Ensures (members n) w fun l w' => w' = w ∧ w.store.list? n.number = some l ∧
      Consolidated k l ∧ (∀ x ∈ l, w.store.ValidNode v x ∧ x.isConstant = false) ∧
      w.store.load heft n = w.store.loads heft l := by
  refine ensures_ask fun hw l hl => ?_
  have list := (Store.list?_of_members hl).2
  obtain ⟨hc, valid⟩ := hw.of_members hn hl hk
  exact ⟨rfl, list, hc, fun x hx => ⟨valid x hx, hc.not_isConstant hx⟩,
    Store.load_combined hw hk list⟩

/-- What the first pair of members that calls for a change makes of a node; nothing if there is no
such pair. -/
def followOnce (k : Connective) (n : Node) : Pass (Option Node) := do
  if n.connective? ≠ some k then return none
  match ← findPair k [] (← members n) with
  | none => return none
  | some f =>
    match f.advice with
    | .alwaysTrue => return some .all
    | .neverTrue => return some .none
    | _ => return some (← combine k (f.others ++ (← f.kept)))

theorem applyAdvice_of_ne (ne : n.connective? ≠ some k) : applyAdvice k rounds n = pure n := by
  cases rounds with
  | zero => rfl
  | succ rounds => rw [applyAdvice, if_pos ne]

/-- Advice is followed once and then again, until nothing comes of it. -/
theorem applyAdvice_succ : applyAdvice k (rounds + 1) n = (do
    match ← followOnce k n with
    | none => return n
    | some n' => applyAdvice k rounds n') := by
  rw [applyAdvice, followOnce]
  split
  · rw [pure_bind]
  simp only [bind_assoc]
  refine bind_congr fun ms => bind_congr fun out => ?_
  cases out with
  | none => rw [pure_bind]
  | some f =>
    have all : applyAdvice k rounds .all = pure .all := applyAdvice_of_ne (by cases k <;> decide)
    have nothing : applyAdvice k rounds .none = pure .none :=
      applyAdvice_of_ne (by cases k <;> decide)
    obtain ⟨advice, left, right, others⟩ := f
    cases advice <;> simp only [bind_assoc, pure_bind, all, nothing]

/-- Following advice once makes a node lighter, unless no two members call for a change. -/
theorem ensures_followOnce (hn : w.store.ValidNode v n) :
    (growing v).Ensures (followOnce k n) w fun out w' =>
      (out = none → ∀ l, n.connective? = some k → w'.store.list? n.number = some l →
        w'.store.Retained k l) ∧
      ∀ n' ∈ out, w'.store.ValidNode v n' ∧ w.store.Sheds n w'.store n' := by
  rw [followOnce]
  split
  · next ne => exact .pure fun _ => ⟨fun _ l hk _ => (ne hk).elim, by simp⟩
  next hk =>
  rw [ne_eq, not_not] at hk
  refine .assuming fun hw => (ensures_members_list hn hk).bind fun l w₁ hw₁ le₁ read => ?_
  obtain ⟨rfl, hl, hc, inner, whole⟩ := read
  have bears := Store.one_le_load one_le_heft hw hn
    (Node.not_isConstant_of_isCombined (Node.isCombined_of_connective? hk))
  refine (ensures_of_repeats ensures_findPair_retained repeats_findPair).bind
    fun out w₂ hw₂ le₂ h => ?_
  obtain ⟨⟨retained, compares⟩, splits⟩ := h
  cases out with
  | none =>
    refine .pure fun _ => ⟨fun _ l' _ hl' => ?_, by simp⟩
    cases hl'.symm.trans (le₂.list? hl)
    exact retained rfl
  | some f =>
    have splits := splits f rfl
    simp only [List.reverse_nil, List.nil_append] at splits
    have decided : ∀ {c : Node} {w' : Work}, c.isConstant = true →
        (some c = none → ∀ l, n.connective? = some k → w'.store.list? n.number = some l →
          w'.store.Retained k l) ∧
        ∀ n' ∈ some c, w'.store.ValidNode v n' ∧ w₁.store.Sheds n w'.store n' := by
      intro c w' constant
      refine ⟨by simp, fun n' hn' => ?_⟩
      cases hn'
      exact ⟨.constant constant, .constant constant bears⟩
    simp only
    split
    · exact .pure fun _ => decided (by decide)
    · exact .pure fun _ => decided (by decide)
    have valid : ∀ x ∈ l, w₁.store.ValidNode v x := fun x hx => (inner x hx).1
    have inner₂ : ∀ x ∈ l, w₂.store.ValidNode v x ∧ x.isConstant = false := fun x hx =>
      ⟨(valid x hx).mono le₂, (inner x hx).2⟩
    have same : w₂.store.loads heft l = w₁.store.loads heft l :=
      Store.loads_of_extends hw le₂ valid
    -- The pair loses load, and what takes its place bears no more leaves.
    have leaves : w₂.store.TotalAtMost v (w₁.store.occurrences n) l := by
      refine ⟨fun x hx => (inner₂ x hx).1, ?_⟩
      rw [Store.total_of_extends hw le₂ valid, Store.occurrences_combined hw hk hl]
    refine (ensures_of_repeats (reduces_kept splits (compares f rfl) inner₂)
      (repeats_kept splits hc leaves)).bind fun kept w₃ hw₃ _ left => ?_
    obtain ⟨⟨valid, less⟩, ⟨total, -, -⟩⟩ := left
    refine (((ensures_build (Store.ensures_combine_load (f := heft) valid)).and
      (ensures_build (Store.ensures_combine_atMost total)) hw₃).lenient).bind
        fun n' w₄ _ _ joined => .pure fun _ => ⟨by simp, fun n'' hn'' => ?_⟩
    cases hn''
    obtain ⟨⟨valid, most⟩, few⟩ := joined
    exact ⟨valid, ⟨by omega, few.le⟩⟩

/-- Following advice makes a node lighter, unless no two members call for a change. -/
theorem reduces_applyAdvice (hn : w.store.ValidNode v n) (few : w.store.load heft n ≤ rounds) :
    (growing v).Ensures (applyAdvice k rounds n) w fun n' w' =>
      w'.store.Lightened v (w.store.load heft n) (∀ l, n.connective? = some k →
        w'.store.list? n.number = some l → w'.store.Retained k l) n n' := by
  induction rounds generalizing w n with
  | zero =>
    refine .pure fun hw => ⟨hn, .inl ⟨rfl, fun l hk _ => ?_⟩⟩
    have := Store.one_le_load one_le_heft hw hn
      (Node.not_isConstant_of_isCombined (Node.isCombined_of_connective? hk))
    omega
  | succ rounds ih =>
    rw [applyAdvice_succ]
    refine (ensures_followOnce hn).bind fun out w₁ hw₁ le₁ followed => ?_
    obtain ⟨retained, sheds⟩ := followed
    cases out with
    | none => exact .pure fun _ => ⟨hn.mono le₁, .inl ⟨rfl, retained rfl⟩⟩
    | some n₁ =>
      obtain ⟨valid, lighter, -⟩ := sheds n₁ rfl
      refine (ih valid (by omega)).mono fun n' w₂ _ le h => ⟨h.valid, .inr ?_⟩
      have := h.load_le hw₁ le valid
      omega

/-! ## Rounds -/

/-- A node whose members do not call for a change and are irreducible. -/
def Steady (s : Store) (known : List Node) (n : Node) : Prop :=
  ∀ k l, n.connective? = some k → s.list? n.number = some l →
    s.Retained k l ∧ s.Standing k known l

theorem Steady.mono {s t : Store} (hs : s.Valid v) (le : s.Extends t) (hn : s.ValidNode v n)
    (h : Steady s known n) : Steady t known n := by
  intro k l hk hl
  obtain ⟨l', hl', -⟩ := hn.list? hk
  cases hl.symm.trans (le.list? hl')
  obtain ⟨retained, standing⟩ := h k l hk hl'
  exact ⟨retained.mono le, standing.mono hs le (hs.members _ _ hl')⟩

theorem reduces_rejoin {l' : List Node} (hn : w.store.ValidNode v n)
    (hk : n.connective? = some k) (hl : w.store.list? n.number = some l)
    (pruned : w.store.MembersPruned v k known (w.store.load heft n) True l l')
    (few : w.store.load heft n ≤ rounds) :
    (growing v).Ensures (rejoin k rounds (some l')) w fun n' w' =>
      w'.store.Lightened v (w.store.load heft n) (Steady w'.store known n) n n' := by
  refine .assuming fun hw => ?_
  rw [rejoin]
  rcases pruned.lighter with ⟨rfl, standing⟩ | lighter
  · -- Members that are still the same are joined to the node.
    have joined : combine k l' w = .ok n w :=
      combine_of_eq_ok w.budget (Store.combine_eq_self hw hn hk hl)
    refine ((reduces_applyAdvice (k := k) hn few).mono fun n' w' _ le h => ?_).of_run_eq
      (bind_eq_of_ok joined)
    refine ⟨h.valid, h.lighter.imp_left fun unchanged => ⟨unchanged.1, ?_⟩⟩
    intro k' l'' hk' hl''
    cases hk.symm.trans hk'
    cases hl''.symm.trans (le.list? hl)
    refine ⟨unchanged.2 _ hk hl'', (standing trivial).mono hw le fun x hx => ?_⟩
    exact hw.members _ _ hl x hx
  · refine (ensures_build (Store.ensures_combine_load (f := heft) pruned.valid)).lenient.bind
      fun n₁ w₁ hw₁ _ joined => ?_
    obtain ⟨valid₁, most⟩ := joined
    refine (reduces_applyAdvice valid₁ (by omega)).mono fun n' w₂ _ le h => ⟨h.valid, .inr ?_⟩
    have := h.load_le hw₁ le valid₁
    omega

/-- In one round a node becomes lighter, unless nothing tells of its members. -/
theorem reduces_pruneOnce (hp : Reduces v most p) (hn : w.store.ValidNode v n)
    (hk : n.connective? = some k) (few : w.store.load heft n ≤ most + 1)
    (hr : w.store.load heft n ≤ rounds) :
    (growing v).Ensures (pruneOnce p rounds known k n) w fun n' w' =>
      w'.store.Lightened v (w.store.load heft n) (Steady w'.store known n) n n' := by
  refine .assuming fun hw => (ensures_members_list hn hk).bind fun ms w₁ _ _ read => ?_
  obtain ⟨rfl, hl, hc, inner, whole⟩ := read
  have bears := Store.one_le_load one_le_heft hw hn
    (Node.not_isConstant_of_isCombined (Node.isCombined_of_connective? hk))
  have each : ∀ x ∈ ms, w₁.store.Inner v most x := fun x hx => by
    have := Store.load_lt_loads one_le_heft hw hc (hw.members _ _ hl) hx
    exact ⟨(inner x hx).1, (inner x hx).2, by omega⟩
  have rejoined : ∀ {l' : List Node}, (∀ x ∈ l', w₁.store.Inner v most x) →
      (l' = ms ∨ w₁.store.loads heft l' < w₁.store.loads heft ms) →
      (growing v).Ensures (pruneMembers p k known l' >>= rejoin k rounds) w₁ fun n' w' =>
        w'.store.Lightened v (w₁.store.load heft n) (Steady w'.store known n) n n' := by
    intro l' each fewer
    refine (reduces_pruneMembers hp each).bind fun out w₂ hw₂ le₂ hout => ?_
    cases out with
    | none => exact .pure fun _ => .constant (by cases k <;> decide) bears
    | some l'' =>
      have pruned := hout l'' rfl
      have same : w₂.store.load heft n = w₁.store.load heft n :=
        Store.load_of_extends hw le₂ hn
      have pruned : w₂.store.MembersPruned v k known (w₂.store.load heft n) True ms l'' := by
        refine ⟨pruned.valid, ?_⟩
        rw [same, whole]
        rcases fewer with rfl | fewer
        · exact pruned.lighter.imp_left fun h => ⟨h.1, fun _ => h.2 hc.two_le⟩
        · refine .inr ?_
          rcases pruned.lighter with ⟨rfl, -⟩ | lighter
          · rw [Store.loads_of_extends hw le₂ fun x hx => (each x hx).valid]
            exact fewer
          · exact lighter.trans fewer
      rw [← same] at hr ⊢
      exact reduces_rejoin (hn.mono le₂) hk (le₂.list? hl) pruned hr
  cases k with
  | and => exact rejoined each (.inl rfl)
  | or =>
    have opened : (growing v).Ensures (read (openMembers · known ms)) w₁ fun out w' =>
        w' = w₁ ∧ ∀ l' ∈ out, l'.Sublist ms :=
      ensures_ask fun _ out hout => ⟨rfl, fun l' hl' => by
        cases hl'
        exact sublist_of_openMembers hout⟩
    refine opened.bind fun out w₂ _ _ h => ?_
    obtain ⟨rfl, sub⟩ := h
    cases out with
    | none => exact .pure fun _ => .constant (by decide) bears
    | some l' =>
      have sub := sub l' rfl
      refine rejoined (fun x hx => each x (sub.mem hx)) ?_
      by_cases eq : l' = ms
      · exact .inl eq
      · exact .inr (Store.loads_lt_of_sublist
          (Store.one_le_load_of_mem one_le_heft hw hc (hw.members _ _ hl)) sub eq)

/-- Rounds go on until one changes nothing. A node that comes up again cannot have become lighter,
so it is the one that the round began with. -/
theorem reduces_repeatStep {step : Connective → Node → Pass Node} {seen : List Node}
    (hstep : ∀ {w : Work} {n : Node} {k : Connective}, w.store.ValidNode v n →
      n.connective? = some k → w.store.load heft n ≤ c →
      (growing v).Ensures (step k n) w fun n' w' =>
        w'.store.Lightened v (w.store.load heft n) (Steady w'.store known n) n n')
    (hn : w.store.ValidNode v n) (few : w.store.load heft n ≤ c)
    (hr : w.store.load heft n ≤ rounds) (here : n ∈ seen)
    (heavier : ∀ x ∈ seen, w.store.ValidNode v x ∧
      (x = n ∨ w.store.load heft n < w.store.load heft x)) :
    (growing v).Ensures (repeatStep step seen rounds n) w fun n' w' =>
      w'.store.Lightened v (w.store.load heft n) True n n' ∧ Steady w'.store known n' := by
  induction rounds generalizing w n seen with
  | zero =>
    refine .pure fun hw => ⟨⟨hn, .inl ⟨rfl, trivial⟩⟩, fun k l hk _ => ?_⟩
    have := Store.one_le_load one_le_heft hw hn
      (Node.not_isConstant_of_isCombined (Node.isCombined_of_connective? hk))
    omega
  | succ rounds ih =>
    rw [repeatStep]
    cases hk : n.connective? with
    | none =>
      refine .pure fun _ => ⟨⟨hn, .inl ⟨rfl, trivial⟩⟩, fun k l hk' _ => ?_⟩
      rw [hk] at hk'
      cases hk'
    | some k =>
      refine .assuming fun hw => ensures_check.lenient.bind fun _ w₁ hw₁ le₁ _ => ?_
      have bears₁ : ∀ {x : Node}, w.store.ValidNode v x →
          w₁.store.load heft x = w.store.load heft x := Store.load_of_extends hw le₁
      rw [← bears₁ hn] at few hr ⊢
      refine (hstep (hn.mono le₁) hk few).bind fun n' w₂ hw₂ le₂ h => ?_
      have bears₂ : ∀ {x : Node}, w.store.ValidNode v x →
          w₂.store.load heft x = w.store.load heft x :=
        Store.load_of_extends hw (le₁.trans le₂)
      split
      · next again =>
        rw [List.contains_iff_mem] at again
        refine .pure fun _ => ?_
        rcases h.lighter with ⟨rfl, steady⟩ | lighter
        · exact ⟨⟨h.valid, .inl ⟨rfl, trivial⟩⟩, steady⟩
        · obtain ⟨valid, rfl | more⟩ := heavier n' again
          · rw [bears₁ valid, bears₂ valid] at lighter
            omega
          · rw [bears₁ hn, bears₂ valid] at lighter
            omega
      · next new =>
        rw [List.contains_iff_mem] at new
        have lighter : w₂.store.load heft n' < w₁.store.load heft n := by
          rcases h.lighter with ⟨rfl, -⟩ | lighter
          · exact (new here).elim
          · exact lighter
        refine (ih h.valid (by omega) (by omega) List.mem_cons_self fun x hx => ?_).mono
          fun n'' w₃ _ le₃ h' => ⟨⟨h'.1.valid, .inr ?_⟩, h'.2⟩
        · rcases List.mem_cons.1 hx with rfl | hx
          · exact ⟨h.valid, .inl rfl⟩
          · obtain ⟨valid, more⟩ := heavier x hx
            refine ⟨valid.mono (le₁.trans le₂), .inr ?_⟩
            rw [bears₂ valid]
            rw [bears₁ hn] at lighter
            rcases more with rfl | more
            · exact lighter
            · omega
        · exact (h'.1.load_le hw₂ le₃ h.valid).trans_lt lighter

theorem ensures_settle_silent :
    (growing v).Ensures (settle n known) w fun out w' =>
      (∀ n' ∈ out, n'.isConstant = true) ∧ (out = none → w'.store.Silent known n) := by
  have asked : (growing v).Ensures (read (·.settledBy n known)) w fun out w =>
      w.store.settledBy n known = .ok out := ensures_ask fun _ _ eq => eq
  refine asked.bind fun out w' _ _ eq => .pure fun _ => ⟨fun n' hn' => ?_, fun none => ?_⟩
  · obtain ⟨value, -, rfl⟩ := Option.map_eq_some_iff.1 hn'
    cases value <;> decide
  · rw [Option.map_eq_none_iff.1 none] at eq
    exact Store.silent_iff.2 eq

/-- **What a node is pruned to is constant or irreducible, and lighter unless it is the node.** -/
theorem reduces_pruneWithin (hf : most < fuel) : Reduces v most (pruneWithin fuel) := by
  induction fuel generalizing most with
  | zero => omega
  | succ fuel ih =>
    intro w n known hn few
    rw [pruneWithin]
    refine .assuming fun hw => ensures_check.lenient.bind fun _ w₁ hw₁ le₁ _ => ?_
    rw [← Store.load_of_extends (f := heft) hw le₁ hn] at few ⊢
    have hn := hn.mono le₁
    split
    · next constant => exact .pure fun _ => ⟨hn, .inl rfl, .inl constant⟩
    next inconstant =>
    have bears := Store.one_le_load one_le_heft hw₁ hn (Bool.eq_false_iff.2 inconstant)
    have pruned : ∀ {c : Node} {w' : Work}, c.isConstant = true →
        w'.store.Pruned v known (w₁.store.load heft n) n c := fun h =>
      ⟨.constant h, .inr (by rw [Store.load_of_isConstant h]; exact bears), .inl h⟩
    refine ensures_settle_silent.bind fun out w₂ hw₂ le₂ settled => ?_
    cases out with
    | some constant => exact .pure fun _ => pruned (settled.1 constant rfl)
    | none =>
    have silent := settled.2 rfl
    rw [← Store.load_of_extends (f := heft) hw₁ le₂ hn] at few bears pruned ⊢
    have hn := hn.mono le₂
    obtain ⟨most, rfl⟩ : ∃ i, most = i + 1 := ⟨most - 1, by omega⟩
    have round : (growing v).Ensures (repeatStep
        (pruneOnce (fun m context => pruneWithin fuel m context) fuel known) [n] fuel n) w₂ _ :=
      reduces_repeatStep
        (fun hn hk few => reduces_pruneOnce (ih (by omega)) hn hk few (by omega)) hn few (by omega)
        (List.mem_singleton_self n) fun x hx => by
          obtain rfl := List.mem_singleton.1 hx
          exact ⟨hn, .inl rfl⟩
    refine round.bind fun n' w₃ hw₃ le₃ h => ?_
    obtain ⟨lightened, steady⟩ := h
    have lighter : n' = n ∨ w₃.store.load heft n' < w₂.store.load heft n :=
      lightened.lighter.imp_left And.left
    split
    · next done =>
      rw [Bool.or_eq_true, decide_eq_true_eq] at done
      refine .pure fun _ => ⟨lightened.valid, lighter, ?_⟩
      rcases done with rfl | constant
      · exact .inr (.of_standing (silent.mono le₃) steady)
      · exact .inl constant
    refine ensures_settle_silent.bind fun out w₄ hw₄ le₄ settled => ?_
    cases out with
    | some constant => exact .pure fun _ => pruned (settled.1 constant rfl)
    | none =>
      refine .pure fun _ => ⟨lightened.valid.mono le₄, ?_, .inr ?_⟩
      · rwa [Store.load_of_extends hw₃ le₄ lightened.valid]
      · exact .of_standing (settled.2 rfl) (steady.mono hw₃ le₄ lightened.valid)

end Pass

end Criteria

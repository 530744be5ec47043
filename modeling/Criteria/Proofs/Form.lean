import Criteria.Proofs.Composition

/-!
# Forms of nodes

How connectives may nest in a node: a leaf, or a node with the first connective of a list over
nodes that use the rest of the list (`Store.hasForm`). The OR-of-AND form is that of OR over AND.

**Theorem (`keepsForm_pruneWithin`).** Pruning a node of the OR-of-AND form gives a node of this
form or a constant, and pruning one without OR, or without either connective, gives such a one.

Joining nodes of a form gives a node of the form (`fits_combine`), because members with the
connective at hand are replaced by their own members, and constants never become members. Pruning
replaces members by nodes of their form (`ensures_forall_pruneMembers`) and joins what is left. It
goes round as long as there is something to take apart, so a property that a round keeps and
constants have is kept (`ensures_pruneWithin_of_step`). All else that it does is to add lists, which
changes the form of no node that is there.
-/

namespace Criteria

namespace Store

variable {s t : Store} {k : Connective} {ks ks' : List Connective} {n m : Node}
  {l l' : List Node}

/-! ## Forms -/

/-- A leaf, or a node with a connective of the list over nodes that are of the form of what follows
the connective in the list. -/
def hasForm (s : Store) : List Connective → Node → Bool
  | [], n => n.isLeaf
  | k :: ks, n =>
    s.hasForm ks n ||
      n.connective? = some k && (s.list? n.number).any fun l => l.all (s.hasForm ks)

theorem hasForm_cons_iff : s.hasForm (k :: ks) n = true ↔ s.hasForm ks n = true ∨
    n.connective? = some k ∧ ∃ l, s.list? n.number = some l ∧ ∀ m ∈ l, s.hasForm ks m = true := by
  rw [hasForm, Bool.or_eq_true, Bool.and_eq_true, decide_eq_true_eq]
  simp only [Option.any_eq_true, List.all_eq_true]

theorem hasForm_of_isLeaf (h : n.isLeaf = true) (ks : List Connective) :
    s.hasForm ks n = true := by
  induction ks with
  | nil => exact h
  | cons k ks ih => exact hasForm_cons_iff.2 (.inl ih)

/-- Lists that are added change no form. -/
theorem hasForm_mono (le : s.Extends t) (h : s.hasForm ks n = true) : t.hasForm ks n = true := by
  induction ks generalizing n with
  | nil => exact h
  | cons k ks ih =>
    rw [hasForm_cons_iff] at h ⊢
    refine h.imp ih fun ⟨hk, l, hl, each⟩ => ⟨hk, l, le.list? hl, fun m hm => ih (each m hm)⟩

theorem hasForm_of_suffix (sub : ks <:+ ks') (h : s.hasForm ks n = true) :
    s.hasForm ks' n = true := by
  induction ks' with
  | nil => exact List.suffix_nil.1 sub ▸ h
  | cons k ks' ih =>
    rcases List.suffix_cons_iff.1 sub with rfl | sub
    · exact h
    · exact hasForm_cons_iff.2 (.inl (ih sub))

/-- The members of a combined node have the form of what follows its connective. -/
theorem hasForm_of_connective? (h : s.hasForm ks n = true) (hk : n.connective? = some k) :
    ∃ ks', k :: ks' <:+ ks ∧ ∃ l, s.list? n.number = some l ∧ ∀ m ∈ l, s.hasForm ks' m = true := by
  induction ks with
  | nil =>
    rw [Node.connective?_eq_none_iff.2 (Node.not_isCombined_of_isLeaf h)] at hk
    cases hk
  | cons k' ks ih =>
    rcases hasForm_cons_iff.1 h with h | ⟨hk', l, hl, each⟩
    · obtain ⟨ks', sub, rest⟩ := ih h
      exact ⟨ks', sub.trans (List.suffix_cons k' ks), rest⟩
    · rw [hk] at hk'
      cases hk'
      exact ⟨ks, List.suffix_refl _, l, hl, each⟩

/-- A node of a form, or a constant. -/
def Fits (s : Store) (ks : List Connective) (n : Node) : Prop :=
  n.isConstant = true ∨ s.hasForm ks n = true

namespace Fits

theorem mono (le : s.Extends t) (h : s.Fits ks n) : t.Fits ks n := h.imp_right (hasForm_mono le)

theorem of_suffix (sub : ks <:+ ks') (h : s.Fits ks n) : s.Fits ks' n :=
  h.imp_right (hasForm_of_suffix sub)

theorem hasForm (h : s.Fits ks n) (hk : n.connective? = some k) : s.hasForm ks n = true := by
  refine h.resolve_left fun constant => ?_
  rw [Node.not_isConstant_of_isCombined (Node.isCombined_of_connective? hk)] at constant
  cases constant

/-- Without its first connective a node fits what follows. -/
theorem tail (h : s.Fits (k :: ks) n) (hk : n.connective? ≠ some k) : s.Fits ks n :=
  h.imp_right fun h => (hasForm_cons_iff.1 h).resolve_right fun h' => hk h'.1

/-- The members of a node with the first connective, which does not come again. -/
theorem members (h : s.Fits (k :: ks) n) (new : k ∉ ks) (hk : n.connective? = some k)
    (hl : s.members n = .ok l) : ∀ m ∈ l, s.hasForm ks m = true := by
  obtain ⟨ks', sub, l', hl', each⟩ := hasForm_of_connective? (h.hasForm hk) hk
  rw [(list?_of_members hl).2] at hl'
  cases hl'
  rcases List.suffix_cons_iff.1 sub with eq | sub
  · cases eq
    exact each
  · exact (new (sub.subset List.mem_cons_self)).elim

theorem neutralNode : s.Fits ks k.neutralNode := .inl (by cases k <;> decide)

theorem absorbingNode : s.Fits ks k.absorbingNode := .inl (by cases k <;> decide)

end Fits

/-! ## Joining -/

section Join

variable (new : k ∉ ks)
include new

theorem fits_flatten (h : ∀ m ∈ l, s.Fits (k :: ks) m) (eq : s.flatten k l = .ok l') :
    ∀ m ∈ l', s.Fits ks m := by
  induction l generalizing l' with
  | nil =>
    cases eq
    simp
  | cons m l ih =>
    obtain ⟨front, back, hfront, hback, rfl⟩ := flatten_cons_eq_ok eq
    rw [List.forall_mem_cons] at h
    intro m' hm'
    rcases List.mem_append.1 hm' with hm' | hm'
    · split at hfront
      · next hk => exact .inr (h.1.members new hk hfront m' hm')
      · next hk =>
        cases hfront
        exact List.mem_singleton.1 hm' ▸ h.1.tail hk
    · exact ih h.2 hback m' hm'

omit new in
theorem fits_wrap (h : ∀ m ∈ l, s.hasForm ks m = true) (eq : s.wrap k l = .ok (n, t)) :
    t.Fits (k :: ks) n := by
  unfold wrap at eq
  split at eq
  · cases eq
    exact .neutralNode
  · cases eq
    exact .inr (hasForm_cons_iff.2 (.inl (h n (List.mem_singleton_self n))))
  · obtain ⟨⟨id, u⟩, registered, eq⟩ := bind_eq_ok_iff.1 eq
    obtain ⟨m, number, eq⟩ := bind_eq_ok_iff.1 eq
    cases eq
    obtain ⟨hk, hl⟩ := joins_of_register registered number
    refine .inr (hasForm_cons_iff.2 (.inr ⟨hk, l, hl, fun m hm => ?_⟩))
    exact hasForm_mono (extends_register registered).1 (h m hm)

/-- Joining nodes of a form by its first connective gives a node of the form. -/
theorem fits_combine (h : ∀ m ∈ l, s.Fits (k :: ks) m) (eq : s.combine k l = .ok (n, t)) :
    t.Fits (k :: ks) n := by
  unfold combine at eq
  split at eq
  · cases eq
  obtain ⟨flat, hflat, eq⟩ := bind_eq_ok_iff.1 eq
  simp only at eq
  split at eq
  · cases eq
    exact .absorbingNode
  next absorbing =>
  split at eq
  · cases eq
    exact .absorbingNode
  refine fits_wrap (fun m hm => ?_) eq
  obtain ⟨hm, ne⟩ := List.mem_filter.1 hm
  refine (fits_flatten new h hflat m (Ascending.mem_ofList.1 hm)).resolve_left fun constant => ?_
  rcases (isConstant_iff_node k).1 constant with rfl | rfl
  · exact of_decide_eq_true ne rfl
  · exact absorbing (List.contains_iff_mem.2 hm)

theorem ensures_fits_combine (h : ∀ m ∈ l, s.Fits (k :: ks) m) :
    additions.Ensures (Build.combine k l) s fun n t => t.Fits (k :: ks) n :=
  Build.ensures_combine_eq.mono fun _ _ _ _ eq => fits_combine new h eq

end Join

theorem ensures_read_eq {α : Type} {I : Store → Prop} (f : Store → Except Fault α) :
    (within I).Ensures (Build.read f) s fun a t => f t = .ok a := by
  intro hs
  rw [Build.read]
  cases eq : f s with
  | ok a => exact ⟨hs, .refl s, eq⟩
  | error fault => exact ⟨hs, .refl s, trivial⟩

theorem isLeaf_of_negate {a : Nat} (lt : a < Node.maxValues)
    (h : (Node.unknownOf a).negate = .ok m) : m.isLeaf = true := by
  unfold Node.negate at h
  split at h
  · cases h
  split at h
  · cases h
  · cases h
    exact Node.isLeaf_flip_unknownOf lt

theorem isLeaf_of_knownArgument (h : (do (← n.unknownOfArgument).negate) = Except.ok m) :
    m.isLeaf = true := by
  obtain ⟨u, hu, negation⟩ := bind_eq_ok_iff.1 h
  obtain ⟨op, -, eq⟩ := bind_eq_ok_iff.1 hu
  cases eq
  refine isLeaf_of_negate ?_ negation
  exact Nat.lt_trans (Nat.mod_lt _ (by decide)) (by decide : 4096 < Node.maxValues)

theorem isLeaf_of_knownReference (h : (do (← n.unknownOfReference).negate) = Except.ok m) :
    m.isLeaf = true := by
  obtain ⟨u, hu, negation⟩ := bind_eq_ok_iff.1 h
  obtain ⟨op, -, eq⟩ := bind_eq_ok_iff.1 hu
  split at eq
  · cases eq
  · cases eq
    exact isLeaf_of_negate (Nat.mod_lt _ (by decide)) negation

/-- That the arguments of a leaf are known is said by leaves. -/
theorem ensures_fits_knownCheck :
    additions.Ensures (Build.knownCheck n) s fun n' t => t.Fits [.and] n' := by
  refine (ensures_read_eq _).bind fun known t _ _ hknown => ?_
  have leaf : known.isLeaf = true := isLeaf_of_knownArgument hknown
  split
  · refine (ensures_read_eq _).bind fun known' t' _ _ hknown' => ?_
    have leaf' : known'.isLeaf = true := isLeaf_of_knownReference hknown'
    refine ensures_fits_combine (by simp) fun m hm => .inr (hasForm_of_isLeaf ?_ _)
    rcases List.mem_pair.1 hm with rfl | rfl
    · exact leaf
    · exact leaf'
  · exact .pure fun _ => .inr (hasForm_of_isLeaf leaf _)

end Store

/-! ## Passes -/

/-- Passes grow stores with a property. -/
abbrev Work.within (I : Store → Prop) : Growth Failure Work := Work.lift (Store.within I)

/-- Passes grow stores by any lists. -/
abbrev Work.additions : Growth Failure Work := Work.lift Store.additions

namespace Pass

open Store (Fits)

variable {α : Type} {w : Work} {k : Connective} {ks : List Connective} {n m : Node}
  {l assumptions : List Node} {prune : Node → List Node → Pass Node}

/-- All that a pass does to a store is to add lists. -/
theorem Composed.ensures {x : Pass α} (h : Composed x) (w : Work) :
    Work.additions.Ensures x w fun _ _ => True := by
  induction h generalizing w with
  | pure a => exact .pure fun _ => trivial
  | check => exact ensures_check
  | build adds => exact ensures_build (adds w.store)
  | bind _ _ hx hf => exact (hx w).bind fun a w' _ _ _ => hf a w'

theorem ensures_read_eq {I : Store → Prop} (f : Store → Except Fault α) :
    (Work.within I).Ensures (read f) w fun a w' => f w'.store = .ok a :=
  ensures_build (Store.ensures_read_eq f)

theorem ensures_fits_combine (new : k ∉ ks) (h : ∀ m ∈ l, w.store.Fits (k :: ks) m) :
    Work.additions.Ensures (combine k l) w fun n w => w.store.Fits (k :: ks) n :=
  ensures_build (Store.ensures_fits_combine new h)

theorem ensures_fits_members (h : w.store.Fits (k :: ks) n) (new : k ∉ ks)
    (hk : n.connective? = some k) :
    Work.additions.Ensures (members n) w fun l w => ∀ m ∈ l, w.store.hasForm ks m = true :=
  (ensures_read_eq _).mono fun _ _ _ le hl => (h.mono le).members new hk hl

/-! ## Pruning -/

/-- A pass under assumptions that takes nodes of a form to nodes of the form. -/
def KeepsForm (ks : List Connective) (prune : Node → List Node → Pass Node) : Prop :=
  ∀ {w : Work} {n : Node} {assumptions : List Node}, w.store.Fits ks n →
    Work.additions.Ensures (prune n assumptions) w fun n' w => w.store.Fits ks n'

section Members

variable {I : Store → Prop} {P : Store → Node → Prop}
  (stable : ∀ {s t n}, s.Extends t → P s n → P t n)
  (premised : ∀ {w : Work} (m : Node), (Work.within I).Ensures (premise k m) w fun _ _ => True)
  (hprune : ∀ {w : Work} {n : Node} {assumptions : List Node}, P w.store n →
    (Work.within I).Ensures (prune n assumptions) w fun n' w => P w.store n')
include stable premised hprune

/-- What members are pruned to has the property if they have. Assumptions need not have it. -/
theorem ensures_forall_pruneFrom {pending : List Pending} (hm : P w.store m)
    (hp : ∀ p ∈ pending, P w.store p.member) :
    (Work.within I).Ensures (pruneFrom prune k assumptions m pending) w fun out w =>
      ∀ l ∈ out, ∀ m ∈ l, P w.store m := by
  induction pending generalizing m assumptions w with
  | nil =>
    rw [pruneFrom]
    refine (hprune hm).bind fun m' w' _ _ hm' => .pure fun _ l hl => ?_
    split at hl
    · cases hl
    · cases hl
      exact List.forall_mem_singleton.2 hm'
  | cons next rest ih =>
    rw [List.forall_mem_cons] at hp
    rw [pruneFrom]
    refine (hprune hm).bind fun m' w₁ _ le₁ hm' => ?_
    split
    · exact .pure fun _ l hl => by cases hl
    refine ensures_check.bind fun _ w₂ _ le₂ _ => ?_
    refine (premised m').bind fun p w₃ _ le₃ _ => ?_
    have le : (Work.within I).le w₁ w₃ := le₂.trans le₃
    have le' : (Work.within I).le w w₃ := le₁.trans le
    refine (ih (stable le' hp.1) fun p mem => stable le' (hp.2 p mem)).map
      fun out w₄ _ le₄ hout l hl => ?_
    obtain ⟨l', hl', rfl⟩ := Option.map_eq_some_iff.1 hl
    exact List.forall_mem_cons.2 ⟨stable (le.trans le₄) hm', hout l' hl'⟩

theorem ensures_forall_pruneMembers (h : ∀ m ∈ l, P w.store m) :
    (Work.within I).Ensures (pruneMembers prune k assumptions l) w fun out w =>
      ∀ l ∈ out, ∀ m ∈ l, P w.store m := by
  cases l with
  | nil => exact .pure fun _ l hl => by cases hl; simp
  | cons m rest =>
    rw [List.forall_mem_cons] at h
    rw [pruneMembers]
    refine ensures_check.bind fun _ w₁ _ le₁ _ => ?_
    have pend : (Work.within I).Ensures
        (rest.mapM fun n => return (⟨n, ← premise k n⟩ : Pending)) w₁ fun pending w =>
          pending.map (·.member) = rest ∧ ∀ p ∈ pending, P w.store p.member :=
      .map_mapM (P := fun n w => P (Work.store w) n) (fun _ _ _ _ le h => stable le h)
        (fun _ _ _ _ le h => stable le h)
        (fun n _ w hn => (premised n).bind fun p w' _ le _ => .pure fun _ => ⟨rfl, stable le hn⟩)
        fun n hn => stable le₁ (h.2 n hn)
    refine pend.bind fun pending w₂ _ le₂ h₂ => ?_
    have first : P w₂.store m := stable (le₁.trans le₂) h.1
    exact ensures_forall_pruneFrom (P := P) stable premised hprune first h₂.2

end Members

/-- Members that are left open were members before. -/
theorem sublist_of_openMembers {s : Store} {l l' : List Node}
    (h : openMembers s assumptions l = .ok (some l')) : l'.Sublist l := by
  induction l generalizing l' with
  | nil =>
    cases h
    exact List.nil_sublist []
  | cons m rest ih =>
    unfold openMembers at h
    obtain ⟨settled, -, h⟩ := bind_eq_ok_iff.1 h
    cases settled with
    | none =>
      obtain ⟨out, hout, h⟩ := bind_eq_ok_iff.1 h
      obtain ⟨l', rfl, rfl⟩ := Option.map_eq_some_iff.1 (Except.ok.inj h)
      exact (ih hout).cons_cons m
    | some value =>
      cases value with
      | true => cases h
      | false => exact (ih h).cons m

/-- All nodes of a finding come from the list. -/
theorem ensures_forall_findPartner {I : Store → Prop} {P : Node → Prop} {left : Node}
    {before between : List Node} (hm : P left) (hbefore : ∀ m ∈ before, P m)
    (hbetween : ∀ m ∈ between, P m) (hl : ∀ m ∈ l, P m) :
    (Work.within I).Ensures (findPartner k left before between l) w fun out _ =>
      ∀ f ∈ out, P f.left ∧ ∀ m ∈ f.right :: f.others, P m := by
  induction l generalizing w between with
  | nil => exact .pure fun _ f hf => by cases hf
  | cons right after ih =>
    rw [List.forall_mem_cons] at hl
    rw [findPartner]
    refine ensures_check.bind fun _ w₁ _ _ _ => ?_
    refine (ensures_read_eq _).bind fun advice w₂ _ _ _ => ?_
    split
    · exact ih (List.forall_mem_cons.2 ⟨hl.1, hbetween⟩) hl.2
    · refine .pure fun _ f hf => ?_
      cases hf
      refine ⟨hm, List.forall_mem_cons.2 ⟨hl.1, fun m hm => ?_⟩⟩
      rw [List.mem_append, List.mem_append, List.mem_reverse, List.mem_reverse] at hm
      rcases hm with (hm | hm) | hm
      · exact hbefore m hm
      · exact hbetween m hm
      · exact hl.2 m hm

theorem ensures_forall_findPair {I : Store → Prop} {P : Node → Prop} {before : List Node}
    (hbefore : ∀ m ∈ before, P m) (hl : ∀ m ∈ l, P m) :
    (Work.within I).Ensures (findPair k before l) w fun out _ =>
      ∀ f ∈ out, P f.left ∧ ∀ m ∈ f.right :: f.others, P m := by
  induction l generalizing w before with
  | nil => exact .pure fun _ f hf => by cases hf
  | cons left rest ih =>
    rw [List.forall_mem_cons] at hl
    rw [findPair]
    refine (ensures_forall_findPartner hl.1 hbefore (by simp) hl.2).bind fun out w₁ _ _ hout => ?_
    cases out with
    | some finding => exact .pure fun _ f hf => hout f hf
    | none => exact ih (List.forall_mem_cons.2 ⟨hl.1, hbefore⟩) hl.2

/-- What a pair of a form leaves has the form, if leaves that are joined by AND have. -/
theorem ensures_fits_kept {f : Finding} (known : [.and] <:+ ks) (hl : w.store.Fits ks f.left)
    (hr : w.store.Fits ks f.right) :
    Work.additions.Ensures f.kept w fun out w => ∀ m ∈ out, w.store.Fits ks m := by
  have left : ∀ m ∈ [f.left], w.store.Fits ks m := List.forall_mem_singleton.2 hl
  unfold Finding.kept
  cases f.advice with
  | removeLeft => exact .pure fun _ => List.forall_mem_singleton.2 hr
  | removeBoth => exact .pure fun _ => by simp
  | replaceByKnown =>
    refine (ensures_build Store.ensures_fits_knownCheck).bind fun n w' _ _ hn => .pure fun _ => ?_
    exact List.forall_mem_singleton.2 (hn.of_suffix known)
  | _ => exact .pure fun _ => left

section Round

variable (new : k ∉ ks) (known : [.and] <:+ k :: ks)
include new known

theorem ensures_fits_applyAdvice (rounds : Nat) (h : w.store.Fits (k :: ks) n) :
    Work.additions.Ensures (applyAdvice k rounds n) w fun n' w => w.store.Fits (k :: ks) n' := by
  induction rounds generalizing w n with
  | zero => exact .pure fun _ => h
  | succ rounds ih =>
    rw [applyAdvice]
    split
    · exact .pure fun _ => h
    next hk =>
    rw [ne_eq, not_not] at hk
    refine (ensures_fits_members h new hk).bind fun ms w₁ _ le₁ hms => ?_
    refine (ensures_forall_findPair (P := fun m => w₁.store.hasForm ks m = true) (by simp)
      hms).bind fun out w₂ _ le₂ hout => ?_
    cases out with
    | none => exact .pure fun _ => h.mono (Work.additions.trans le₁ le₂)
    | some f =>
      obtain ⟨hleft, hothers⟩ := hout f rfl
      rw [List.forall_mem_cons] at hothers
      have fits : ∀ {m : Node} {w' : Work}, w₁.store.hasForm ks m = true →
          w₁.store.Extends w'.store → w'.store.Fits (k :: ks) m := fun hm le =>
        (Fits.mono le (.inr hm)).of_suffix (List.suffix_cons k ks)
      simp only
      split
      · exact .pure fun _ => .inl (by decide)
      · exact .pure fun _ => .inl (by decide)
      refine (ensures_fits_kept known (fits hleft le₂) (fits hothers.1 le₂)).bind
        fun kept w₃ _ le₃ hkept => ?_
      refine (ensures_fits_combine new fun m hm => ?_).bind fun n' w₄ _ _ h' => ih h'
      rcases List.mem_append.1 hm with hm | hm
      · exact fits (hothers.2 m hm) (Work.additions.trans le₂ le₃)
      · exact hkept m hm

theorem ensures_fits_rejoin (rounds : Nat) {out : Option (List Node)}
    (h : ∀ l ∈ out, ∀ m ∈ l, w.store.Fits ks m) :
    Work.additions.Ensures (rejoin k rounds out) w fun n' w => w.store.Fits (k :: ks) n' := by
  cases out with
  | none => exact .pure fun _ => .absorbingNode
  | some ms =>
    refine (ensures_fits_combine new fun m hm => ?_).bind
      fun n w' _ _ hn => ensures_fits_applyAdvice new known rounds hn
    exact (h ms rfl m hm).of_suffix (List.suffix_cons k ks)

theorem ensures_fits_pruneOnce (hprune : KeepsForm ks prune) (rounds : Nat)
    (h : w.store.Fits (k :: ks) n) (hk : n.connective? = some k) :
    Work.additions.Ensures (pruneOnce prune rounds assumptions k n) w fun n' w =>
      w.store.Fits (k :: ks) n' := by
  refine (ensures_fits_members h new hk).bind fun ms w₁ _ _ hms => ?_
  have finish : ∀ {w' : Work} {ms : List Node}, (∀ m ∈ ms, w'.store.Fits ks m) →
      Work.additions.Ensures (do rejoin k rounds (← pruneMembers prune k assumptions ms)) w'
        fun n' w => w.store.Fits (k :: ks) n' := fun h =>
    (ensures_forall_pruneMembers (P := fun s => s.Fits ks) (fun le h => h.mono le)
      (fun m => (composed_premise k m).ensures _) hprune h).bind fun out w₂ _ _ hout =>
        ensures_fits_rejoin new known rounds hout
  cases k with
  | and => exact finish fun m hm => .inr (hms m hm)
  | or =>
    refine (ensures_read_eq _).bind fun out w₂ _ le₂ hout => ?_
    cases out with
    | none => exact .pure fun _ => .inl (by decide)
    | some ms' =>
      exact finish fun m hm => Fits.mono le₂ (.inr (hms m ((sublist_of_openMembers hout).mem hm)))

end Round

theorem ensures_isConstant_settle {I : Store → Prop} :
    (Work.within I).Ensures (settle n assumptions) w fun out _ =>
      ∀ n' ∈ out, n'.isConstant = true := by
  refine (ensures_read_eq _).bind fun out w' _ _ _ => .pure fun _ n' hn' => ?_
  obtain ⟨value, -, rfl⟩ := Option.map_eq_some_iff.1 hn'
  cases value with
  | true => decide
  | false => decide

section Steps

variable {I : Store → Prop} {P : Store → Node → Prop}
  (stable : ∀ {s t n}, s.Extends t → P s n → P t n)
include stable

theorem ensures_repeatStep_of_step {step : Connective → Node → Pass Node} {seen : List Node}
    {rounds : Nat}
    (hstep : ∀ {w : Work} {k : Connective} {n : Node}, P w.store n → n.connective? = some k →
      (Work.within I).Ensures (step k n) w fun n' w => P w.store n')
    (h : P w.store n) :
    (Work.within I).Ensures (repeatStep step seen rounds n) w fun n' w => P w.store n' := by
  induction rounds generalizing w n seen with
  | zero => exact .pure fun _ => h
  | succ rounds ih =>
    rw [repeatStep]
    split
    · exact .pure fun _ => h
    next k hk =>
    refine ensures_check.bind fun _ w₁ _ le₁ _ => ?_
    refine (hstep (stable le₁ h) hk).bind fun n' w₂ _ _ h' => ?_
    split
    · exact .pure fun _ => h'
    · exact ih h'

/-- A property that constants have is kept by pruning if it is kept by a round. -/
theorem ensures_pruneWithin_of_step {fuel : Nat}
    (constant : ∀ {s : Store} {n : Node}, n.isConstant = true → P s n)
    (hstep : ∀ {w : Work} {k : Connective} {n : Node}, P w.store n → n.connective? = some k →
      (Work.within I).Ensures (pruneOnce (pruneWithin fuel) fuel assumptions k n) w fun n' w =>
        P w.store n')
    (h : P w.store n) :
    (Work.within I).Ensures (pruneWithin (fuel + 1) n assumptions) w fun n' w =>
      P w.store n' := by
  rw [pruneWithin]
  refine ensures_check.bind fun _ w₁ _ le₁ _ => ?_
  split
  · exact .pure fun _ => stable le₁ h
  refine ensures_isConstant_settle.bind fun out w₂ _ le₂ settled => ?_
  split
  · next decided => exact .pure fun _ => constant (settled decided rfl)
  refine (ensures_repeatStep_of_step (P := P) stable hstep
    (stable (le₁.trans le₂) h)).bind fun n' w₃ _ _ h' => ?_
  split
  · exact .pure fun _ => h'
  refine ensures_isConstant_settle.bind fun out w₄ _ le₄ settled => ?_
  split
  · next decided => exact .pure fun _ => constant (settled decided rfl)
  · exact .pure fun _ => stable le₄ h'

end Steps

/-- OR over AND. -/
abbrev orOverAnd : List Connective := [.or, .and]

theorem of_suffix_orOverAnd (h : k :: ks <:+ orOverAnd) : k ∉ ks ∧ [.and] <:+ k :: ks := by
  rcases List.suffix_cons_iff.1 h with eq | h
  · cases eq
    exact ⟨by decide, List.suffix_cons _ _⟩
  rcases List.suffix_cons_iff.1 h with eq | h
  · cases eq
    exact ⟨by simp, List.suffix_refl _⟩
  · cases List.suffix_nil.1 h

theorem eq_nil_of_suffix_orOverAnd (h : .and :: ks <:+ orOverAnd) : ks = [] := by
  rcases List.suffix_cons_iff.1 h with eq | h
  · cases eq
  rcases List.suffix_cons_iff.1 h with eq | h
  · cases eq
    rfl
  · cases List.suffix_nil.1 h

/-- Pruning keeps the form of a node that is of the OR-of-AND form, or of a part of it. -/
theorem keepsForm_pruneWithin (fuel : Nat) (sub : ks <:+ orOverAnd) :
    KeepsForm ks (pruneWithin fuel) := by
  induction fuel generalizing ks with
  | zero =>
    intro w n assumptions h
    exact .pure fun _ => h
  | succ fuel ih =>
    intro w n assumptions h
    refine ensures_pruneWithin_of_step (P := fun s => s.Fits ks) (fun le h => h.mono le) .inl
      (fun {w k n} h hk => ?_) h
    -- A round works on the part of the form that begins with the connective at hand.
    obtain ⟨ks', sub', l, hl, each⟩ := Store.hasForm_of_connective? (h.hasForm hk) hk
    obtain ⟨new, known⟩ := of_suffix_orOverAnd (sub'.trans sub)
    have part : w.store.Fits (k :: ks') n :=
      .inr (Store.hasForm_cons_iff.2 (.inr ⟨hk, l, hl, each⟩))
    have keeps : KeepsForm ks' (pruneWithin fuel) :=
      ih ((List.suffix_cons k ks').trans (sub'.trans sub))
    exact (ensures_fits_pruneOnce new known keeps fuel part hk).mono
      fun n' w' _ _ h' => h'.of_suffix sub'

theorem ensures_fits_prune (sub : ks <:+ orOverAnd) (h : w.store.Fits ks n) :
    Work.additions.Ensures (Pass.prune n) w fun n' w => w.store.Fits ks n' :=
  (keepsForm_pruneWithin (w.store.effort n) sub h).of_run_eq rfl

end Pass

end Criteria

import Criteria.Proofs.Demands

/-!
# What passes hand on

A property of nodes is *hereditary* if the members of a node have it when the node has, a node that
is joined has it when its members have, the constants have it, and so does the check that the
arguments of a leaf with the property are known. All this may rest on a property of the store, as
long as registering a list of such nodes keeps it.

**Theorem (`preserves_simplify`).** Every pass takes nodes with a hereditary property to
nodes with the property, and pruning does so whatever it is told to assume.

Passes take nodes apart, put their members together in other ways, and put in constants and checks
that something is known. Nothing else gets into what they return: the complements of siblings and
the other assumptions under which members are pruned are only compared with what is there
(`preserves_pruneWithin` asks nothing of them), and what is taken out of ORs are members of their
members (`ensures_forall_bestOverlap`).
-/

namespace Criteria

namespace Store

/-! ## Hereditary properties -/

/-- A property that the constants have, and a combined node just if its members do, in stores with
a property that registering such members keeps. -/
structure Compositional (I : Store → Prop) (H : Store → Node → Prop) : Prop where
  mono : ∀ {s t n}, s.Extends t → H s n → H t n
  constant : ∀ {s n}, n.isConstant = true → H s n
  members : ∀ {s n l}, I s → H s n → s.members n = .ok l → ∀ m ∈ l, H s m
  combined : ∀ {s k n l}, n.connective? = some k → s.list? n.number = some l →
    (∀ m ∈ l, H s m) → H s n
  register : ∀ {s t l id}, I s → (∀ m ∈ l, H s m) → s.register l = .ok (id, t) → I t

/-- A property that besides goes from a leaf to the checks that its arguments are known. Complements
need not have it, but building one keeps the property of the store. -/
structure Hereditary (I : Store → Prop) (H : Store → Node → Prop) : Prop
    extends Compositional I H where
  argument : ∀ {s n m}, H s n → (do (← n.unknownOfArgument).negate) = Except.ok m → H s m
  reference : ∀ {s n m}, H s n → (do (← n.unknownOfReference).negate) = Except.ok m → H s m
  complement : ∀ {s} n, (within I).Ensures (Build.complement n) s fun _ _ => True

section

variable {I : Store → Prop} {H : Store → Node → Prop} {s t : Store} {k : Connective} {n : Node}
  {l l' : List Node}

namespace Compositional

variable (hH : Compositional I H)
include hH

theorem absorbingNode : H s k.absorbingNode := hH.constant (by cases k <;> decide)

theorem forall_mono (le : s.Extends t) (h : ∀ m ∈ l, H s m) : ∀ m ∈ l, H t m := fun m hm =>
  hH.mono le (h m hm)

theorem flatten (hs : I s) (h : ∀ m ∈ l, H s m) (eq : s.flatten k l = .ok l') :
    ∀ m ∈ l', H s m := by
  induction l generalizing l' with
  | nil =>
    cases eq
    simp
  | cons m l ih =>
    obtain ⟨front, back, hfront, hback, rfl⟩ := flatten_cons_eq_ok eq
    rw [List.forall_mem_cons] at h
    refine List.forall_mem_append.2 ⟨?_, ih h.2 hback⟩
    split at hfront
    · exact hH.members hs h.1 hfront
    · cases hfront
      exact List.forall_mem_singleton.2 h.1

theorem combine (hs : I s) (h : ∀ m ∈ l, H s m) (eq : s.combine k l = .ok (n, t)) :
    I t ∧ H t n := by
  rcases cases_of_combine eq with ⟨constant, rfl⟩ | ⟨flat, r, hflat, sub, rest⟩
  · exact ⟨hs, hH.constant constant⟩
  have each : ∀ m ∈ r, H s m := fun m hm =>
    hH.flatten hs h hflat m (Ascending.mem_ofList.1 (sub.mem hm))
  rcases rest with ⟨rfl, rfl⟩ | ⟨id, registered, number⟩
  · exact ⟨hs, each n List.mem_cons_self⟩
  · obtain ⟨hk, hl⟩ := joins_of_register registered number
    refine ⟨hH.register hs each registered, hH.combined hk hl ?_⟩
    exact hH.forall_mono (extends_register registered).1 each

theorem ensures_combine (h : ∀ m ∈ l, H s m) :
    (within I).Ensures (Build.combine k l) s fun n t => H t n := by
  intro hs
  unfold Build.combine
  cases eq : s.combine k l with
  | ok result =>
    obtain ⟨ht, hn⟩ := hH.combine hs h eq
    exact ⟨ht, extends_combine eq, hn⟩
  | error fault => exact ⟨hs, .refl s, trivial⟩

end Compositional

theorem Hereditary.ensures_knownCheck (hH : Hereditary I H) (h : H s n) :
    (within I).Ensures (Build.knownCheck n) s fun n' t => H t n' := by
  refine (ensures_read_eq _).bind fun known t _ le hknown => ?_
  have hknown : H t known := hH.argument (hH.mono le h) hknown
  split
  · refine (ensures_read_eq _).bind fun known' u _ le' hknown' => ?_
    have hknown' : H u known' := hH.reference (hH.mono (le.trans le') h) hknown'
    exact hH.ensures_combine
      (List.forall_mem_cons.2 ⟨hH.mono le' hknown, List.forall_mem_singleton.2 hknown'⟩)
  · exact .pure fun _ => hknown

end

end Store

/-! ## Passes -/

namespace Pass

open Store (Hereditary)

variable {I : Store → Prop} {H : Store → Node → Prop} {w : Work} {k : Connective} {n m : Node}
  {l assumptions : List Node}

/-- A pass that takes nodes with a property to nodes with the property, in stores with a property
that it keeps. -/
def Preserves (I : Store → Prop) (H : Store → Node → Prop) (x : Node → Pass Node) : Prop :=
  ∀ {w : Work} {n : Node}, H w.store n →
    (Work.within I).Ensures (x n) w fun n' w => H w.store n'

section

variable (hH : Hereditary I H)
include hH

theorem ensures_members_of_hereditary (h : H w.store n) :
    (Work.within I).Ensures (members n) w fun l w => ∀ m ∈ l, H w.store m :=
  (ensures_read_eq _).mono fun _ _ hw le hl => hH.members hw (hH.mono le h) hl

theorem ensures_combine_of_hereditary (h : ∀ m ∈ l, H w.store m) :
    (Work.within I).Ensures (combine k l) w fun n w => H w.store n :=
  ensures_build (hH.ensures_combine h)

/-- What is assumed because of a member is not looked at, but building it keeps the store. -/
theorem ensures_premise_of_hereditary :
    (Work.within I).Ensures (premise k m) w fun _ _ => True := by
  cases k with
  | and => exact .pure fun _ => trivial
  | or =>
    unfold premise
    simp only
    split
    · exact .pure fun _ => trivial
    · exact (ensures_build (hH.complement m)).map fun _ _ _ _ _ => trivial

theorem Preserves.ensures_mapM {x : Node → Pass Node} (hx : Preserves I H x)
    (h : ∀ m ∈ l, H w.store m) :
    (Work.within I).Ensures (l.mapM x) w fun l' w => ∀ m ∈ l', H w.store m := by
  have each : (Work.within I).Ensures (l.mapM x) w fun l' w =>
      List.Forall₂ (fun _ m => H (Work.store w) m) l l' :=
    .mapM (P := fun m w => H (Work.store w) m) (fun _ _ _ _ le h => hH.mono le h)
      (fun _ _ _ _ _ le h => hH.mono le h) (fun m _ w h => hx h) h
  refine each.mono fun l' w' _ _ h' m hm => ?_
  obtain ⟨-, -, h⟩ := exists_of_mem_forall₂ h' hm
  exact h

/-! ### Pruning -/

/-- A pair leaves one of its nodes, or the check that the arguments of one are known. -/
theorem ensures_forall_kept {f : Finding} (left : H w.store f.left) (right : H w.store f.right) :
    (Work.within I).Ensures f.kept w fun out w => ∀ m ∈ out, H w.store m := by
  unfold Finding.kept
  cases f.advice with
  | removeLeft => exact .pure fun _ => List.forall_mem_singleton.2 right
  | removeBoth => exact .pure fun _ => by simp
  | replaceByKnown =>
    exact (ensures_build (hH.ensures_knownCheck left)).bind fun n w' _ _ hn =>
      .pure fun _ => List.forall_mem_singleton.2 hn
  | _ => exact .pure fun _ => List.forall_mem_singleton.2 left

theorem preserves_applyAdvice (k : Connective) (rounds : Nat) :
    Preserves I H (applyAdvice k rounds) := by
  intro w n h
  induction rounds generalizing w n with
  | zero => exact .pure fun _ => h
  | succ rounds ih =>
    rw [applyAdvice]
    split
    · exact .pure fun _ => h
    refine (ensures_members_of_hereditary hH h).bind fun ms w₁ _ le₁ hms => ?_
    refine (ensures_forall_findPair (P := H w₁.store) (by simp) hms).bind
      fun out w₂ _ le₂ hout => ?_
    cases out with
    | none => exact .pure fun _ => hH.mono (le₁.trans le₂) h
    | some f =>
      obtain ⟨left, rest⟩ := hout f rfl
      obtain ⟨right, others⟩ := List.forall_mem_cons.1 rest
      simp only
      split
      · exact .pure fun _ => hH.constant (by decide)
      · exact .pure fun _ => hH.constant (by decide)
      refine (ensures_forall_kept hH (hH.mono le₂ left) (hH.mono le₂ right)).bind
        fun kept w₃ _ le₃ hkept => ?_
      have all : ∀ m ∈ f.others ++ kept, H w₃.store m :=
        List.forall_mem_append.2 ⟨hH.forall_mono (le₂.trans le₃) others, hkept⟩
      exact (ensures_combine_of_hereditary hH all).bind fun n' w₄ _ _ h' => ih h'

theorem ensures_rejoin_of_hereditary (rounds : Nat) {out : Option (List Node)}
    (h : ∀ l ∈ out, ∀ m ∈ l, H w.store m) :
    (Work.within I).Ensures (rejoin k rounds out) w fun n' w => H w.store n' := by
  cases out with
  | none => exact .pure fun _ => hH.absorbingNode
  | some ms =>
    exact (ensures_combine_of_hereditary hH (h ms rfl)).bind fun n w' _ _ hn =>
      preserves_applyAdvice hH k rounds hn

theorem preserves_pruneOnce {prune : Node → List Node → Pass Node}
    (hprune : ∀ l, Preserves I H (prune · l)) (rounds : Nat) (assumptions : List Node)
    (k : Connective) : Preserves I H (pruneOnce prune rounds assumptions k) := by
  intro w n h
  refine (ensures_members_of_hereditary hH h).bind fun ms w₁ _ _ hms => ?_
  have finish : ∀ {w' : Work} {ms : List Node}, (∀ m ∈ ms, H w'.store m) →
      (Work.within I).Ensures (do rejoin k rounds (← pruneMembers prune k assumptions ms)) w'
        fun n' w => H w.store n' := fun h =>
    (ensures_forall_pruneMembers (P := H) hH.mono (fun _ => ensures_premise_of_hereditary hH)
      (fun h => hprune _ h) h).bind fun out w₂ _ _ hout =>
        ensures_rejoin_of_hereditary hH rounds hout
  cases k with
  | and => exact finish hms
  | or =>
    refine (ensures_read_eq _).bind fun out w₂ _ le₂ hout => ?_
    cases out with
    | none => exact .pure fun _ => hH.constant (by decide)
    | some ms' =>
      exact finish fun m hm => hH.mono le₂ (hms m ((sublist_of_openMembers hout).mem hm))

/-- Pruning under any assumptions preserves a hereditary property. The assumptions need not have
it. -/
theorem preserves_pruneWithin (fuel : Nat) (assumptions : List Node) :
    Preserves I H (pruneWithin fuel · assumptions) := by
  induction fuel generalizing assumptions with
  | zero =>
    intro w n h
    exact .pure fun _ => h
  | succ fuel ih =>
    intro w n h
    refine ensures_pruneWithin_of_step (P := H) hH.mono hH.constant (fun {w k n} h _ => ?_) h
    exact preserves_pruneOnce hH ih fuel assumptions k h

theorem preserves_pruneUnder (assumptions : List Node) :
    Preserves I H (pruneUnder · assumptions) := fun {w n} h =>
  (preserves_pruneWithin hH (w.store.effort n) assumptions h).of_run_eq rfl

theorem preserves_prune : Preserves I H prune := preserves_pruneUnder hH []

/-! ### Distributing -/

theorem ensures_forall_product {term factor : Node} (ht : H w.store term)
    (hf : H w.store factor) :
    (Work.within I).Ensures (product term factor) w fun out w => ∀ n ∈ out, H w.store n := by
  unfold product
  split
  · exact .pure fun _ n hn => by cases hn; exact hf
  split
  · exact .pure fun _ n hn => by cases hn; exact ht
  refine (ensures_read_eq _).bind fun forth w₁ _ le₁ _ => ?_
  split
  · exact .pure fun _ n hn => by cases hn; exact hH.mono le₁ ht
  refine (ensures_read_eq _).bind fun back w₂ _ le₂ _ => ?_
  split
  · exact .pure fun _ n hn => by cases hn; exact hH.mono (le₁.trans le₂) hf
  refine (ensures_read_eq _).bind fun never w₃ _ le₃ _ => ?_
  split
  · exact .pure fun _ n hn => by cases hn
  have le : (Work.within I).le w w₃ := (le₁.trans le₂).trans le₃
  have both : ∀ m ∈ [term, factor], H w₃.store m :=
    hH.forall_mono le (List.forall_mem_cons.2 ⟨ht, List.forall_mem_singleton.2 hf⟩)
  refine (ensures_combine_of_hereditary hH both).bind fun n w₄ _ _ h => .pure fun _ n' hn' => ?_
  split at hn'
  · cases hn'
  · cases hn'
    exact h

theorem ensures_forall_productsOf {term : Node} (ht : H w.store term)
    (hl : ∀ m ∈ l, H w.store m) :
    (Work.within I).Ensures (productsOf term l) w fun out w => ∀ n ∈ out, H w.store n := by
  induction l generalizing w with
  | nil => exact .pure fun _ => by simp
  | cons factor rest ih =>
    rw [List.forall_mem_cons] at hl
    rw [productsOf]
    refine ensures_check.bind fun _ w₁ _ le₁ _ => ?_
    refine (ensures_forall_product hH (hH.mono le₁ ht) (hH.mono le₁ hl.1)).bind
      fun out w₂ _ le₂ hout => ?_
    have le : (Work.within I).le w w₂ := le₁.trans le₂
    refine (ih (hH.mono le ht) (hH.forall_mono le hl.2)).bind
      fun out' w₃ _ le₃ hout' => .pure fun _ => ?_
    have front : ∀ n ∈ out.toList, H w₃.store n := fun n hn =>
      hH.mono le₃ (hout n (Option.mem_toList.1 hn))
    exact List.forall_mem_append.2 ⟨front, hout'⟩

theorem ensures_forall_products {factors : List Node} (hf : ∀ m ∈ factors, H w.store m)
    (hl : ∀ m ∈ l, H w.store m) :
    (Work.within I).Ensures (products factors l) w fun out w => ∀ n ∈ out, H w.store n := by
  induction l generalizing w with
  | nil => exact .pure fun _ => by simp
  | cons term rest ih =>
    rw [List.forall_mem_cons] at hl
    rw [products]
    refine (ensures_forall_productsOf hH hl.1 hf).bind fun out w₁ _ le₁ hout => ?_
    refine (ih (hH.forall_mono le₁ hf) (hH.forall_mono le₁ hl.2)).bind
      fun out' w₂ _ le₂ hout' => .pure fun _ => ?_
    exact List.forall_mem_append.2 ⟨hH.forall_mono le₂ hout, hout'⟩

theorem ensures_forall_cleanUp (h : ∀ m ∈ l, H w.store m) :
    (Work.within I).Ensures (cleanUp l) w fun out w => ∀ n ∈ out, H w.store n := by
  refine (ensures_combine_of_hereditary hH h).bind fun n w₁ _ _ hn => ?_
  refine (preserves_prune hH hn).bind fun n' w₂ _ _ hn' => ?_
  split
  · exact ensures_members_of_hereditary hH hn'
  · refine .pure fun _ => ?_
    split
    · simp
    · exact List.forall_mem_singleton.2 hn'

theorem ensures_forall_multiplyOut {cleanup : Nat} {terms : List Node}
    (ht : ∀ m ∈ terms, H w.store m) (hl : ∀ m ∈ l, H w.store m) :
    (Work.within I).Ensures (multiplyOut cleanup terms l) w fun out w =>
      ∀ n ∈ out, H w.store n := by
  induction l generalizing w terms with
  | nil => exact .pure fun _ => ht
  | cons n rest ih =>
    rw [List.forall_mem_cons] at hl
    rw [multiplyOut]
    refine (ensures_members_of_hereditary hH hl.1).bind fun ms w₁ _ le₁ hms => ?_
    refine (ensures_forall_products hH hms (hH.forall_mono le₁ ht)).bind
      fun out w₂ _ le₂ hout => ?_
    have rest' : ∀ m ∈ rest, H w₂.store m := hH.forall_mono (le₁.trans le₂) hl.2
    have next : ∀ m ∈ Ascending.ofList out, H w₂.store m := fun m hm =>
      hout m (Ascending.mem_ofList.1 hm)
    have go : ∀ {w₃ : Work} {terms : List Node}, (∀ m ∈ terms, H w₃.store m) →
        (∀ m ∈ rest, H w₃.store m) →
        (Work.within I).Ensures
          (if terms.isEmpty then pure terms else multiplyOut cleanup terms rest) w₃
          fun out w => ∀ n ∈ out, H w.store n := by
      intro w₃ terms ht hl
      split
      · exact .pure fun _ => ht
      · exact ih ht hl
    simp only
    split
    · refine (ensures_forall_cleanUp hH next).bind fun terms w₃ _ le₃ hterms => ?_
      exact go hterms (hH.forall_mono le₃ rest')
    · exact go next rest'

theorem ensures_distributeAnd_of_hereditary {cleanup : Nat} (h : ∀ m ∈ l, H w.store m) :
    (Work.within I).Ensures (distributeAnd cleanup l) w fun n w => H w.store n := by
  unfold distributeAnd
  rw [List.partition_eq_filter_filter]
  simp only
  have others : ∀ m ∈ l.filter (not ∘ (·.isOr)), H w.store m := fun m hm =>
    h m (List.mem_of_mem_filter hm)
  refine (ensures_combine_of_hereditary hH others).bind fun base w₁ _ le₁ hbase => ?_
  split
  · exact .pure fun _ => hbase
  · have ors : ∀ m ∈ l.filter (·.isOr), H w₁.store m := fun m hm =>
      hH.mono le₁ (h m (List.mem_of_mem_filter hm))
    exact (ensures_forall_multiplyOut hH (List.forall_mem_singleton.2 hbase) ors).bind
      fun out w₂ _ _ hout => ensures_combine_of_hereditary hH hout

theorem preserves_distributeWithin (cleanup fuel : Nat) :
    Preserves I H (distributeWithin cleanup fuel) := by
  induction fuel with
  | zero =>
    intro w n h
    exact .pure fun _ => h
  | succ fuel ih =>
    intro w n h
    rw [distributeWithin]
    refine ensures_check.bind fun _ w₁ _ le₁ _ => ?_
    have h := hH.mono le₁ h
    split
    · exact .pure fun _ => h
    next k _ =>
    refine (ensures_members_of_hereditary hH h).bind fun ms w₂ _ _ hms => ?_
    refine (ih.ensures_mapM hH hms).bind fun ms' w₃ _ _ hms' => ?_
    cases k with
    | and => exact ensures_distributeAnd_of_hereditary hH hms'
    | or => exact ensures_combine_of_hereditary hH hms'

theorem preserves_distribute (cleanup : Nat) : Preserves I H (distribute cleanup) := fun {w n} h =>
  (preserves_distributeWithin hH cleanup (w.store.effort n) h).of_run_eq rfl

/-! ### Factoring -/

/-- An overlap that is found consists of members of members. -/
theorem ensures_forall_bestOverlap (h : ∀ m ∈ l, H w.store m) :
    (Work.within I).Ensures (bestOverlap l) w fun out w =>
      ∀ o ∈ out, ∀ n ∈ o, H w.store n := by
  refine ensures_yields_bestOverlap.mono fun out w' hw' le two o ho n hn => ?_
  obtain ⟨m, hm, yields⟩ := List.countP_pos_iff.1 (Nat.lt_of_lt_of_le Nat.zero_lt_two (two o ho))
  cases hl : w'.store.members m with
  | error fault => simp [Store.yields, hl] at yields
  | ok ms =>
    rw [Store.yields, hl, Bool.and_eq_true] at yields
    exact hH.members hw' (hH.mono le (h m hm)) hl n (Ascending.mem_of_subset yields.2 n hn)

theorem ensures_forall_takeOut (overlap : List Node) (h : ∀ m ∈ l, H w.store m) :
    (Work.within I).Ensures (takeOut overlap l) w fun x w =>
      (∀ m ∈ x.rests, H w.store m) ∧ ∀ m ∈ x.others, H w.store m := by
  induction l generalizing w with
  | nil => exact .pure fun _ => by simp
  | cons m rest ih =>
    rw [List.forall_mem_cons] at h
    have keep : ∀ {w' : Work}, (Work.within I).le w w' → (Work.within I).Ensures (do
          let x ← takeOut overlap rest
          return { x with others := m :: x.others }) w' fun x w =>
            (∀ m ∈ x.rests, H w.store m) ∧ ∀ m ∈ x.others, H w.store m := by
      intro w' le
      refine (ih (hH.forall_mono le h.2)).map fun x w'' _ le' ⟨rests, others⟩ => ⟨rests, ?_⟩
      exact List.forall_mem_cons.2 ⟨hH.mono (le.trans le') h.1, others⟩
    rw [takeOut]
    split
    · refine (ensures_members_of_hereditary hH h.1).bind fun ms w₁ _ le₁ hms => ?_
      split
      · have left : ∀ n ∈ Ascending.remove ms overlap, H w₁.store n := fun n hn =>
          hms n (Ascending.mem_of_mem_remove hn)
        refine (ensures_combine_of_hereditary hH left).bind fun n w₂ _ le₂ hn => ?_
        refine (ih (hH.forall_mono (le₁.trans le₂) h.2)).map
          fun x w₃ _ le₃ ⟨rests, others⟩ => ⟨?_, others⟩
        exact List.forall_mem_cons.2 ⟨hH.mono le₃ hn, rests⟩
      · exact keep le₁
    · exact keep (.refl _)

theorem ensures_factorOut_of_hereditary {factor : Node → Pass Node} (hf : Preserves I H factor)
    {overlap : List Node} (h : ∀ m ∈ l, H w.store m) (ho : ∀ m ∈ overlap, H w.store m) :
    (Work.within I).Ensures (factorOut factor l overlap) w fun n w => H w.store n := by
  refine (ensures_forall_takeOut hH overlap h).bind fun x w₁ _ le₁ ⟨rests, others⟩ => ?_
  refine (ensures_combine_of_hereditary hH rests).bind fun inner w₂ _ le₂ hinner => ?_
  refine (hf hinner).bind fun inner w₃ _ le₃ hinner => ?_
  have whole : ∀ m ∈ Ascending.merge overlap [inner], H w₃.store m := by
    intro m hm
    rcases Ascending.mem_merge.1 hm with hm | hm
    · exact hH.mono ((le₁.trans le₂).trans le₃) (ho m hm)
    · exact List.mem_singleton.1 hm ▸ hinner
  refine (ensures_combine_of_hereditary hH whole).bind fun factored w₄ _ le₄ hfactored => ?_
  refine ensures_combine_of_hereditary hH (List.forall_mem_append.2 ⟨?_, ?_⟩)
  · exact hH.forall_mono ((le₂.trans le₃).trans le₄) others
  · exact List.forall_mem_singleton.2 hfactored

theorem preserves_factorAll {factor : Node → Pass Node} (hf : Preserves I H factor) (rounds : Nat) :
    Preserves I H (factorAll factor rounds) := by
  intro w n h
  induction rounds generalizing w n with
  | zero => exact .pure fun _ => h
  | succ rounds ih =>
    rw [factorAll]
    split
    · exact .pure fun _ => h
    refine ensures_check.bind fun _ w₁ _ le₁ _ => ?_
    have h := hH.mono le₁ h
    refine (ensures_members_of_hereditary hH h).bind fun ms w₂ _ le₂ hms => ?_
    refine (ensures_forall_bestOverlap hH hms).bind fun out w₃ _ le₃ hout => ?_
    cases out with
    | none => exact .pure fun _ => hH.mono (le₂.trans le₃) h
    | some overlap =>
      exact (ensures_factorOut_of_hereditary hH hf (hH.forall_mono le₃ hms)
        (hout overlap rfl)).bind fun n' w₄ _ _ h' => ih h'

theorem preserves_factorWithin (fuel : Nat) : Preserves I H (factorWithin fuel) := by
  induction fuel with
  | zero =>
    intro w n h
    exact .pure fun _ => h
  | succ fuel ih =>
    intro w n h
    rw [factorWithin]
    refine ensures_check.bind fun _ w₁ _ le₁ _ => ?_
    have h := hH.mono le₁ h
    split
    · exact .pure fun _ => h
    next k _ =>
    refine (ensures_members_of_hereditary hH h).bind fun ms w₂ _ _ hms => ?_
    refine (ih.ensures_mapM hH hms).bind fun ms' w₃ _ _ hms' => ?_
    refine (ensures_combine_of_hereditary hH hms').bind fun n' w₄ _ _ h' => ?_
    cases k with
    | and => exact .pure fun _ => h'
    | or =>
      exact (preserves_factorAll hH ih fuel h').bind fun n'' w₅ _ _ h'' => preserves_prune hH h''

theorem preserves_factor : Preserves I H factor := fun {w n} h =>
  (preserves_factorWithin hH (w.store.effort n) h).of_run_eq rfl

/-! ### All of them -/

/-- **Simplifying preserves every hereditary property.** -/
theorem preserves_simplify (cleanup : Nat) : Preserves I H (simplify cleanup) := by
  intro w n h
  refine (preserves_prune hH h).bind fun n₁ w₁ _ _ h₁ => ?_
  exact (preserves_distribute hH cleanup h₁).bind fun n₂ w₂ _ _ h₂ => preserves_factor hH h₂

end

end Pass

end Criteria

import Criteria.Proofs.Repetition

/-!
# Pruning again

**Theorem (`repeats_prune`).** A node that was pruned is pruned again to the same node, and no list
is added.

A second run takes the steps of the first, one by one, because each step asks only for what lasts
and builds only what is there. What may differ is where it would be cut short: the second run may
spend another effort than the first. So neither run must be cut short. Pruning makes no node bear
more leaves (`Shrinks`), and what is pruned under a node bears fewer leaves than the node, so there
is enough effort for all levels. On each level, every advice that is followed makes the list of
members shorter, and the rounds stop at a node that was there before, of which there are not more
than there are nodes.
-/

namespace Criteria

namespace Store

variable {s : Store} {k : Connective} {a b n : Node}

/-- Only an OR is told that two members hold where their arguments are known, and of a comparison
and its negation. -/
theorem of_advise_replaceByKnown (h : s.advise k a b = .ok .replaceByKnown) :
    k = .or ∧ a.isLeaf = true ∧ a.isUnknownCheck = false ∧ b = a.flip := by
  have implied : s.adviseImplied k a b ≠ .ok .replaceByKnown := fun h =>
    absurd (mem_of_adviseImplied h) (by decide)
  unfold advise at h
  split at h
  · cases k <;> cases h
  split at h
  · cases h
  split at h
  · cases h
  split at h
  · cases h
  split at h
  · cases h
  split at h
  · next twins =>
    rw [Bool.and_eq_true, decide_eq_true_eq] at twins
    cases k with
    | and => cases h
    | or =>
      cases check : a.isUnknownCheck with
      | true =>
        rw [check] at h
        cases h
      | false => exact ⟨rfl, twins.1, rfl, twins.2⟩
  · cases k with
    | or => exact (implied h).elim
    | and =>
      obtain ⟨never, -, h⟩ := bind_eq_ok_iff.1 h
      cases never with
      | true => cases h
      | false => exact (implied h).elim

/-- Leaves that are joined by AND are no OR. -/
theorem Fits.connective?_ne_or (h : s.Fits [.and] n) : n.connective? ≠ some .or := by
  intro hk
  obtain ⟨ks, sub, -⟩ := hasForm_of_connective? (h.hasForm hk) hk
  rcases List.suffix_cons_iff.1 sub with eq | sub
  · cases eq
  · cases List.suffix_nil.1 sub

end Store

namespace Pass

open Store (AtMost TotalAtMost)

variable {v : Vocabulary} {w : Work} {k : Connective} {n m : Node} {l assumptions : List Node}
  {p q : Node → List Node → Pass Node} {c d most rounds rounds' : Nat}

/-- A pass repeats, and makes no node of few leaves bear more of them: `p` is its first run and `q`
its second. -/
def Shrinks (v : Vocabulary) (most : Nat) (p q : Node → Pass Node) : Prop :=
  ∀ {w : Work} {n : Node} {c : Nat}, c ≤ most → w.store.AtMost v c n →
    (Work.repetition v).Repeats (p n) (q n) w fun n' w => w.store.AtMost v c n'

/-! ## Members -/

/-- The members of a node are the same the second time, and bear what the node does. -/
theorem repeats_members (h : w.store.AtMost v c n) (hk : n.connective? = some k) :
    (Work.repetition v).Repeats (members n) (members n) w fun l w =>
      w.store.list? n.number = some l ∧ Consolidated k l ∧ w.store.TotalAtMost v c l := by
  refine repeats_read (Store.lasting_members n) fun hs l hl => ?_
  obtain ⟨hc, valid⟩ := hs.of_members h.valid hl hk
  have list := (Store.list?_of_members hl).2
  refine ⟨list, hc, valid, ?_⟩
  rw [← Store.occurrences_combined hs hk list]
  exact h.le

theorem repeats_premise (h : w.store.ValidNode v m) :
    (Work.repetition v).Repeats (premise k m) (premise k m) w fun _ _ => True := by
  cases k with
  | and => exact .pure fun _ => trivial
  | or =>
    unfold premise
    simp only
    split
    · exact .pure fun _ => trivial
    have complement := Store.ensures_complement (.of_valid (r := fun _ => none) (c := True) h)
    exact (repeats_build (Build.recurs_complement m) complement).map fun _ _ _ _ _ => trivial

theorem repeats_pruneFrom (shrinks : ∀ known, Shrinks v most (p · known) (q · known))
    {pending : List Pending}
    (few : c ≤ most) (hm : w.store.AtMost v c m)
    (each : ∀ x ∈ pending, w.store.AtMost v most x.member)
    (rest : w.store.TotalAtMost v d (pending.map (·.member))) :
    (Work.repetition v).Repeats (pruneFrom p k assumptions m pending)
      (pruneFrom q k assumptions m pending) w
      fun out w => ∀ l ∈ out, w.store.TotalAtMost v (c + d) l := by
  induction pending generalizing w m assumptions c d with
  | nil =>
    rw [pruneFrom, pruneFrom]
    refine (shrinks _ few hm).bind fun m' w' _ _ hm' => .pure fun _ l hl => ?_
    split at hl
    · cases hl
    · cases hl
      exact (TotalAtMost.singleton hm').mono (Nat.le_add_right c d)
  | cons next others ih =>
    rw [pruneFrom, pruneFrom]
    refine .assuming fun hw => (shrinks _ few hm).bind fun m' w₁ hw₁ le₁ hm' => ?_
    split
    · exact .pure fun _ l hl => by cases hl
    refine repeats_check.bind fun _ w₂ hw₂ le₂ _ => ?_
    refine (repeats_premise (hm'.valid.mono le₂)).bind fun x w₃ hw₃ le₃ _ => ?_
    have later : w₁.store.Extends w₃.store := le₂.trans le₃
    have le : w.store.Extends w₃.store := le₁.trans later
    have kept : ∀ x ∈ next :: others, w₃.store.AtMost v most x.member := fun x hx =>
      (each x hx).of_extends hw le
    obtain ⟨head, tail, share⟩ := (rest.of_extends hw le).uncons
    refine (ih (kept next List.mem_cons_self).le head
      (fun x hx => kept x (List.mem_cons_of_mem _ hx)) tail).map fun out w₄ _ le₄ hout l hl => ?_
    obtain ⟨l', hl', rfl⟩ := Option.map_eq_some_iff.1 hl
    have hm' : w₄.store.AtMost v c m' := hm'.of_extends hw₁ (later.trans le₄)
    exact (TotalAtMost.cons hm' (hout l' hl')).mono (Nat.add_le_add_left share c)

theorem repeats_pruneMembers (shrinks : ∀ known, Shrinks v most (p · known) (q · known))
    (each : ∀ m ∈ l, w.store.AtMost v most m) (h : w.store.TotalAtMost v c l) :
    (Work.repetition v).Repeats (pruneMembers p k assumptions l) (pruneMembers q k assumptions l) w
      fun out w => ∀ l ∈ out, w.store.TotalAtMost v c l := by
  cases l with
  | nil =>
    refine .pure fun _ l hl => ?_
    cases hl
    exact .nil
  | cons m rest =>
    rw [pruneMembers, pruneMembers]
    refine .assuming fun hw => repeats_check.bind fun _ w₁ hw₁ le₁ _ => ?_
    have pend : (Work.repetition v).Repeats
        (rest.mapM fun n => return (⟨n, ← premise k n⟩ : Pending))
        (rest.mapM fun n => return (⟨n, ← premise k n⟩ : Pending)) w₁ fun pending _ =>
        List.Forall₂ (fun n x => x.member = n) rest pending :=
      .mapM (P := fun n (w : Work) => w.store.ValidNode v n) (fun _ _ _ _ le h => h.mono le)
        (fun _ _ _ _ _ _ h => h)
        (fun n _ w hn => (repeats_premise hn).bind fun x _ _ _ _ => .pure fun _ => rfl)
        fun n hn => (h.valid n (List.mem_cons_of_mem m hn)).mono le₁
    refine pend.bind fun pending w₂ hw₂ le₂ hpending => ?_
    have le : w.store.Extends w₂.store := le₁.trans le₂
    have members : pending.map (·.member) = rest := by
      rw [← List.forall₂_eq_eq_eq, List.forall₂_map_left_iff]
      exact hpending.flip
    have kept : ∀ m' ∈ m :: rest, w₂.store.AtMost v most m' := fun m' hm' =>
      (each m' hm').of_extends hw le
    obtain ⟨head, tail, share⟩ := (h.of_extends hw le).uncons
    refine (repeats_pruneFrom shrinks (kept m List.mem_cons_self).le head (fun x hx => ?_)
      (members ▸ tail)).mono fun out w₃ _ _ hout l hl => (hout l hl).mono share
    exact kept _ (List.mem_cons_of_mem m (members ▸ List.mem_map_of_mem hx))

theorem lasting_openMembers (assumptions l : List Node) :
    Store.Lasting (openMembers · assumptions l) := by
  induction l with
  | nil => exact Store.lasting_const _
  | cons m rest ih =>
    refine (Store.lasting_settledBy m assumptions).bind fun settled => ?_
    cases settled with
    | none => exact ih.bind fun _ => Store.lasting_const _
    | some value =>
      cases value with
      | true => exact Store.lasting_const _
      | false => exact ih

/-! ## Following advice -/

/-- A pair of members, with the others. If their arguments being known takes their place, they are
leaves of an OR. -/
structure Finding.Splits (k : Connective) (l : List Node) (f : Finding) : Prop where
  perm : (f.left :: f.right :: f.others).Perm l
  leaves : f.advice = .replaceByKnown → k = .or ∧ f.left.isLeaf = true

theorem repeats_findPartner {left : Node} {before between : List Node} :
    (Work.repetition v).Repeats (findPartner k left before between l)
      (findPartner k left before between l) w fun out _ =>
        ∀ f ∈ out, f.Splits k (before.reverse ++ left :: (between.reverse ++ l)) := by
  induction l generalizing w between with
  | nil => exact .pure fun _ f hf => by cases hf
  | cons right after ih =>
    rw [findPartner]
    refine repeats_check.bind fun _ w₁ _ _ _ => ?_
    have advised : (Work.repetition v).Repeats (read (·.advise k left right))
        (read (·.advise k left right)) w₁ fun advice _ =>
          advice = .replaceByKnown → k = .or ∧ left.isLeaf = true :=
      repeats_read (Store.lasting_advise k left right) fun _ advice advised eq =>
        (Store.of_advise_replaceByKnown (eq ▸ advised)).imp_right And.left
    refine advised.bind fun advice w₂ _ _ leaves => ?_
    split
    · refine ih.mono fun out w₃ _ _ h => ?_
      simpa using h
    · refine .pure fun _ f hf => ?_
      cases hf
      refine ⟨(List.Perm.cons left List.perm_middle.symm).trans ?_, leaves⟩
      rw [List.append_assoc]
      exact List.perm_middle.symm

theorem repeats_findPair {before : List Node} :
    (Work.repetition v).Repeats (findPair k before l) (findPair k before l) w
      fun out _ => ∀ f ∈ out, f.Splits k (before.reverse ++ l) := by
  induction l generalizing w before with
  | nil => exact .pure fun _ f hf => by cases hf
  | cons left rest ih =>
    rw [findPair]
    refine repeats_findPartner.bind fun out w₁ _ _ h => ?_
    cases out with
    | some finding => exact .pure fun _ f hf => by cases hf; simpa using h finding rfl
    | none =>
      refine ih.mono fun out w₂ _ _ h => ?_
      simpa using h

/-- What a pair leaves is one node at most, and joined to the others no more than the pair was. -/
theorem repeats_kept {f : Finding} (hf : f.Splits k l) (hc : Consolidated k l)
    (h : w.store.TotalAtMost v c l) :
    (Work.repetition v).Repeats f.kept f.kept w fun kept w =>
      w.store.TotalAtMost v c (f.others ++ kept) ∧ (f.others ++ kept).length < l.length ∧
        ∀ m ∈ f.others ++ kept, m.connective? ≠ some k := by
  refine .assuming fun hw => ?_
  have whole := h.perm hf.perm
  have lifted : ∀ m ∈ f.left :: f.right :: f.others, m.connective? ≠ some k := fun m hm =>
    hc.lifted m (hf.perm.mem_iff.1 hm)
  have length : l.length = f.others.length + 2 := hf.perm.length_eq.symm
  obtain ⟨left, pair, share⟩ := whole.uncons
  obtain ⟨right, others, share'⟩ := pair.uncons
  rw [Store.total_cons] at share
  -- What takes the place of the pair bears no more leaves than the pair does.
  have place : ∀ {m : Node} {w' : Work}, w.store.Extends w'.store → m.connective? ≠ some k →
      w'.store.AtMost v (w.store.occurrences f.left + w.store.occurrences f.right) m →
      w'.store.TotalAtMost v c (f.others ++ [m]) ∧ (f.others ++ [m]).length < l.length ∧
        ∀ m' ∈ f.others ++ [m], m'.connective? ≠ some k := by
    intro m w' le hm few
    refine ⟨((others.of_extends hw le).append (.singleton few)).mono (by omega), ?_, ?_⟩
    · rw [List.length_append, List.length_singleton]
      omega
    · intro m' hm'
      rcases List.mem_append.1 hm' with hm' | hm'
      · exact lifted m' (List.mem_cons_of_mem _ (List.mem_cons_of_mem _ hm'))
      · exact List.mem_singleton.1 hm' ▸ hm
  have keepLeft := place (.refl w.store) (lifted _ List.mem_cons_self)
    (left.mono (Nat.le_add_right _ _))
  unfold Finding.kept
  cases advice : f.advice with
  | removeLeft =>
    exact .pure fun _ => place (.refl w.store)
      (lifted _ (List.mem_cons_of_mem _ List.mem_cons_self)) (right.mono (Nat.le_add_left _ _))
  | removeBoth =>
    refine .pure fun _ => ?_
    rw [List.append_nil]
    refine ⟨others.mono (by omega), by omega, fun m hm => ?_⟩
    exact lifted m (List.mem_cons_of_mem _ (List.mem_cons_of_mem _ hm))
  | replaceByKnown =>
    obtain ⟨rfl, leaf⟩ := hf.leaves advice
    have bears : ∀ m ∈ f.left :: f.right :: f.others, 1 ≤ w.store.occurrences m := fun m hm =>
      Store.one_le_occurrences hw (whole.valid m hm) (hc.not_isConstant (hf.perm.mem_iff.1 hm))
    have two : 2 ≤ w.store.occurrences f.left + w.store.occurrences f.right :=
      Nat.add_le_add (bears _ List.mem_cons_self)
        (bears _ (List.mem_cons_of_mem _ List.mem_cons_self))
    have known := (Store.ensures_knownCheck_atMost (s := w.store)
      (left.valid.encodes_of_isLeaf leaf)).and Store.ensures_fits_knownCheck trivial
    refine (repeats_build (Build.recurs_knownCheck _) known).bind fun m w' _ le hm =>
      .pure fun _ => ?_
    exact place le hm.2.connective?_ne_or (hm.1.mono two)
  | retainBoth => exact .pure fun _ => keepLeft
  | removeRight => exact .pure fun _ => keepLeft
  | removeEither => exact .pure fun _ => keepLeft
  | alwaysTrue => exact .pure fun _ => keepLeft
  | neverTrue => exact .pure fun _ => keepLeft

/-- Following advice ends before the rounds do, if there are as many as members. -/
theorem repeats_applyAdvice {most : Nat} (h : w.store.AtMost v c n)
    (short : ∀ l, n.connective? = some k → w.store.list? n.number = some l → l.length ≤ most)
    (hr : most < rounds) (hr' : most < rounds') :
    (Work.repetition v).Repeats (applyAdvice k rounds n) (applyAdvice k rounds' n) w
      fun n' w => w.store.AtMost v c n' := by
  induction most using Nat.strongRecOn generalizing rounds rounds' w n with
  | ind most ih =>
    obtain ⟨rounds, rfl⟩ : ∃ i, rounds = i + 1 := ⟨rounds - 1, by omega⟩
    obtain ⟨rounds', rfl⟩ : ∃ i, rounds' = i + 1 := ⟨rounds' - 1, by omega⟩
    rw [applyAdvice, applyAdvice]
    split
    · exact .pure fun _ => h
    next hk =>
    rw [ne_eq, not_not] at hk
    obtain ⟨l, hl, -⟩ := h.valid.list? hk
    have few := short l hk hl
    refine .assuming fun hw => (repeats_members h hk).bind fun ms w₁ hw₁ le₁ read => ?_
    obtain ⟨hms, hc, total⟩ := read
    cases hms.symm.trans (le₁.list? hl)
    refine repeats_findPair.bind fun out w₂ hw₂ le₂ hout => ?_
    have total := total.of_extends hw₁ le₂
    cases out with
    | none => exact .pure fun _ => h.of_extends hw (le₁.trans le₂)
    | some f =>
      have splits := hout f rfl
      simp only [List.reverse_nil, List.nil_append] at splits
      simp only
      split
      · exact .pure fun _ => .of_isConstant (by decide)
      · exact .pure fun _ => .of_isConstant (by decide)
      refine (repeats_kept splits hc total).bind fun kept w₃ hw₃ _ left => ?_
      obtain ⟨rest, shorter, lifted⟩ := left
      have joined := (Store.ensures_combine_atMost rest).and
        (Store.ensures_combine_length (s := w₃.store) lifted) trivial
      refine (repeats_build (Build.recurs_combine k _) joined).bind fun n' w₄ _ _ h' => ?_
      refine ih (most - 1) (by omega) h'.1 (fun l' hk' hl' => ?_) (by omega) (by omega)
      have := h'.2 l' hk' hl'
      omega

/-! ## Rounds -/

theorem repeats_rejoin {out : Option (List Node)} (h : ∀ l ∈ out, w.store.TotalAtMost v c l)
    (hr : c < rounds) (hr' : c < rounds') :
    (Work.repetition v).Repeats (rejoin k rounds out) (rejoin k rounds' out) w
      fun n w => w.store.AtMost v c n := by
  cases out with
  | none => exact .pure fun _ => .of_isConstant (by cases k <;> decide)
  | some l =>
    refine (repeats_combine (h l rfl)).bind fun n w' hw' _ hn =>
      repeats_applyAdvice hn (fun l' hk hl' => ?_) hr hr'
    obtain ⟨l'', hl'', hc⟩ := hn.valid.list? hk
    cases hl'.symm.trans hl''
    have few := Store.length_le_total_of_consolidated hw' hc (hw'.members _ _ hl')
    rw [← Store.occurrences_combined hw' hk hl'] at few
    exact few.trans hn.le

theorem repeats_pruneOnce (shrinks : ∀ known, Shrinks v most (p · known) (q · known))
    (h : w.store.AtMost v c n) (hk : n.connective? = some k) (few : c ≤ most + 1)
    (hr : c < rounds) (hr' : c < rounds') :
    (Work.repetition v).Repeats (pruneOnce p rounds assumptions k n)
      (pruneOnce q rounds' assumptions k n) w fun n' w => w.store.AtMost v c n' := by
  refine (repeats_members h hk).bind fun ms w₁ hw₁ _ read => ?_
  obtain ⟨-, hc, total⟩ := read
  have each := total.members hw₁ hc few
  cases k with
  | and =>
    exact (repeats_pruneMembers shrinks each total).bind fun out w₂ _ _ hout =>
      repeats_rejoin hout hr hr'
  | or =>
    have opened : (Work.repetition v).Repeats (read (openMembers · assumptions ms))
        (read (openMembers · assumptions ms)) w₁ fun out w => ∀ l ∈ out,
          w.store.TotalAtMost v c l ∧ ∀ m ∈ l, w.store.AtMost v most m :=
      repeats_read (lasting_openMembers assumptions ms) fun _ out hout l hl => by
        cases hl
        have sub := sublist_of_openMembers hout
        exact ⟨total.sublist sub, fun m hm => each m (sub.mem hm)⟩
    refine opened.bind fun out w₂ _ _ hout => ?_
    cases out with
    | none => exact .pure fun _ => .of_isConstant (by decide)
    | some l =>
      obtain ⟨total, each⟩ := hout l rfl
      exact (repeats_pruneMembers shrinks each total).bind fun out w₃ _ _ hout =>
        repeats_rejoin hout hr hr'

/-- Rounds come to a node that was there before, since there are more of them than nodes. -/
theorem repeats_repeatStep {step step' : Connective → Node → Pass Node} {seen : List Node}
    (hstep : ∀ {k n} {w : Work}, w.store.AtMost v c n → n.connective? = some k →
      (Work.repetition v).Repeats (step k n) (step' k n) w fun n' w => w.store.AtMost v c n')
    (nodup : seen.Nodup) (hr : UInt32.size < seen.length + rounds)
    (hr' : UInt32.size < seen.length + rounds') (h : w.store.AtMost v c n) :
    (Work.repetition v).Repeats (repeatStep step seen rounds n) (repeatStep step' seen rounds' n) w
      fun n' w => w.store.AtMost v c n' := by
  have room := Node.length_le_of_nodup nodup
  induction rounds generalizing rounds' w n seen with
  | zero => omega
  | succ rounds ih =>
    obtain ⟨rounds', rfl⟩ : ∃ i, rounds' = i + 1 := ⟨rounds' - 1, by omega⟩
    rw [repeatStep, repeatStep]
    cases hk : n.connective? with
    | none => exact .pure fun _ => h
    | some k =>
      refine .assuming fun hw => repeats_check.bind fun _ w₁ _ le₁ _ => ?_
      refine (hstep (h.of_extends hw le₁) hk).bind fun n' w₂ _ _ h' => ?_
      split
      · exact .pure fun _ => h'
      · next new =>
        rw [List.contains_iff_mem] at new
        have nodup := List.nodup_cons.2 ⟨new, nodup⟩
        refine ih nodup ?_ ?_ h' (Node.length_le_of_nodup nodup) <;> rw [List.length_cons] <;> omega

theorem repeats_settle : (Work.repetition v).Repeats (settle n assumptions) (settle n assumptions) w
    fun out _ => ∀ n' ∈ out, n'.isConstant = true := by
  refine (repeats_ask (Store.lasting_settledBy n assumptions)).bind fun out w' _ _ _ =>
    .pure fun _ n' hn' => ?_
  obtain ⟨value, -, rfl⟩ := Option.map_eq_some_iff.1 hn'
  cases value with
  | true => decide
  | false => decide

/-- Pruning repeats, if both times there is effort for all leaves and all nodes. -/
theorem shrinks_pruneWithin {fuel fuel' : Nat} (hf : most + UInt32.size < fuel)
    (hf' : most + UInt32.size < fuel') (assumptions : List Node) :
    Shrinks v most (pruneWithin fuel · assumptions) (pruneWithin fuel' · assumptions) := by
  induction fuel generalizing fuel' most assumptions with
  | zero => omega
  | succ fuel ih =>
    obtain ⟨fuel', rfl⟩ : ∃ i, fuel' = i + 1 := ⟨fuel' - 1, by omega⟩
    intro w n c few h
    simp only [pruneWithin]
    refine .assuming fun hw => repeats_check.bind fun _ w₁ hw₁ le₁ _ => ?_
    have h := h.of_extends hw le₁
    split
    · exact .pure fun _ => h
    next inconstant =>
    refine repeats_settle.bind fun out w₂ hw₂ le₂ settled => ?_
    have h := h.of_extends hw₁ le₂
    cases out with
    | some constant => exact .pure fun _ => .of_isConstant (settled constant rfl)
    | none =>
    have bears := Store.one_le_occurrences hw₂ h.valid (Bool.eq_false_iff.2 inconstant)
    have := h.le
    have nodes : 1 ≤ UInt32.size := by decide
    obtain ⟨most, rfl⟩ : ∃ i, most = i + 1 := ⟨most - 1, by omega⟩
    have shrinks : ∀ known,
        Shrinks v most (pruneWithin fuel · known) (pruneWithin fuel' · known) :=
      ih (by omega) (by omega)
    let step := pruneOnce (fun m context => pruneWithin fuel m context) fuel assumptions
    let step' := pruneOnce (fun m context => pruneWithin fuel' m context) fuel' assumptions
    have round : (Work.repetition v).Repeats (repeatStep step [n] fuel n)
        (repeatStep step' [n] fuel' n) w₂ fun n' w => w.store.AtMost v c n' :=
      repeats_repeatStep
        (fun h hk => repeats_pruneOnce shrinks h hk few (by omega) (by omega))
        (List.nodup_singleton n) (by rw [List.length_singleton]; omega)
        (by rw [List.length_singleton]; omega) h
    refine round.bind fun n' w₃ hw₃ _ h' => ?_
    split
    · exact .pure fun _ => h'
    refine repeats_settle.bind fun out w₄ _ le₄ settled => ?_
    cases out with
    | some constant => exact .pure fun _ => .of_isConstant (settled constant rfl)
    | none => exact .pure fun _ => h'.of_extends hw₃ le₄

/-- **A node that was pruned is pruned again to the same node.** -/
theorem repeats_prune (h : w.store.AtMost v c n) :
    (Work.repetition v).Repeats (prune n) (prune n) w fun n' w => w.store.AtMost v c n' := by
  refine .assuming fun hw => ?_
  have exact : w.store.AtMost v (w.store.occurrences n) n := ⟨h.valid, Nat.le_refl _⟩
  have enough : ∀ t : Work, w.store.PartOf t.store →
      w.store.occurrences n + UInt32.size < t.store.effort n :=
    fun t part => Store.occurrences_add_lt_effort hw part h.valid
  have again : (Work.repetition v).Repeats (prune n) (prune n) w
      fun n' w' => w'.store.AtMost v (w.store.occurrences n) n' :=
    .look (x := pruneWithin (w.store.effort n) n []) rfl fun t same _ =>
      ⟨pruneWithin (t.store.effort n) n [], rfl,
        shrinks_pruneWithin (enough w (.refl _)) (enough t same.2) [] (Nat.le_refl _) exact⟩
  exact again.mono fun _ _ _ _ h' => h'.mono h.le

end Pass

end Criteria

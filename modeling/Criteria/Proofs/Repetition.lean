import Criteria.Proofs.Demands
import Criteria.Proofs.Occurrences

/-!
# Doing it again

What was done once is done again in the same way, where the lists that it met are there and each list
that it adds gets the number that it got. There are two ways to get it: the list is there already,
under this number, or it is not there and the number is the next (`Store.Admits`). So numbers may be
compared and sorted by; they are the same both times. Where all that was added is there, nothing is
added.

`Repetition.Repeats x y s Q` says that of `x`, from the state `s` on, with `y` for the second time.
The two differ in nothing but the effort that they may spend, which depends on how large the store
is. The rules follow the structure of a computation, as those of `Growth.Ensures` do, and like these
they carry along what is known of an answer.

**Theorems.** Reading lasts (`lasting_implies`, `lasting_settledBy`, `lasting_advise`), and joining,
complements and checks of what is known recur (`Build.recurs_combine`, `Build.recurs_complement`,
`Build.recurs_knownCheck`).
-/

namespace Criteria

/-! ## Repetition -/

/-- What it takes to do something again. The first run goes from `s` to `t` if `le s t`. The second
is in a state `u` with `same s u` when the first is in `s`, it may come to what the first comes to if
`above t u`, and while the first comes to `t` it goes from `u` to a `u'` with `follows t u u'`. -/
structure Repetition (σ : Type) where
  valid : σ → Prop
  le : σ → σ → Prop
  same : σ → σ → Prop
  above : σ → σ → Prop
  follows : σ → σ → σ → Prop
  refl : ∀ s, le s s
  trans : ∀ {s t u}, le s t → le t u → le s u
  same_refl : ∀ {s}, valid s → same s s
  above_refl : ∀ s, above s s
  above_mono : ∀ {s t u}, le s t → above t u → above s u
  above_follows : ∀ {s t u u'}, le s t → above t u → follows s u u' → above t u'
  follows_refl : ∀ s u, follows s u u
  follows_trans : ∀ {s t u u' u''}, le s t → follows s u u' → follows t u' u'' → follows t u u''

namespace Repetition

variable {σ ε α β : Type} (g : Repetition σ)

/-- Once true of a valid state, a property stays true of all states above it. -/
def Stable (P : σ → Prop) : Prop := ∀ {s t}, g.valid s → g.le s t → P s → P t

/-- An answer that `x` gives from a valid state has property `Q`, and `y` gives it as well from every
state that goes with it and may come to what `x` comes to. -/
def Repeats (x y : EStateM ε σ α) (s : σ) (Q : α → σ → Prop) : Prop :=
  g.valid s → ∀ a s', x s = .ok a s' → g.valid s' ∧ g.le s s' ∧ Q a s' ∧
    ∀ u, g.same s u → g.above s' u → ∃ u', y u = .ok a u' ∧ g.same s' u' ∧ g.follows s' u u'

variable {g} {x y x' y' : EStateM ε σ α} {f f' : α → EStateM ε σ β} {s : σ}

namespace Repeats

variable {Q Q' : α → σ → Prop} {R : β → σ → Prop}

theorem assuming (h : g.valid s → g.Repeats x y s Q) : g.Repeats x y s Q := fun hs => h hs hs

theorem mono (h : g.Repeats x y s Q) (imp : ∀ a t, g.valid t → g.le s t → Q a t → Q' a t) :
    g.Repeats x y s Q' := by
  intro hs a s' run
  obtain ⟨valid, le, hQ, again⟩ := h hs a s' run
  exact ⟨valid, le, imp a s' valid le hQ, again⟩

/-- What a computation ensures may be known of its answer, too. -/
theorem ensuring {g' : Growth ε σ} (h : g.Repeats x y s Q) (h' : g'.Ensures x s Q')
    (hs' : g'.valid s) : g.Repeats x y s fun a t => Q a t ∧ Q' a t := by
  intro hs a s' run
  obtain ⟨valid, le, hQ, again⟩ := h hs a s' run
  exact ⟨valid, le, ⟨hQ, (h'.of_ok hs' run).2.2⟩, again⟩

/-- That it is the answer may be known of an answer, too. -/
theorem of_run (h : g.Repeats x y s Q) : g.Repeats x y s fun a t => Q a t ∧ x s = .ok a t := by
  intro hs a s' run
  obtain ⟨valid, le, hQ, again⟩ := h hs a s' run
  exact ⟨valid, le, ⟨hQ, run⟩, again⟩

theorem pure {a : α} (h : g.valid s → Q a s) :
    g.Repeats (pure a : EStateM ε σ α) (pure a) s Q := by
  intro hs a' s' run
  cases run
  exact ⟨hs, g.refl s, h hs, fun u same _ => ⟨u, rfl, same, g.follows_refl s u⟩⟩

theorem throw (e : ε) : g.Repeats (throw e : EStateM ε σ α) y s Q := by
  intro _ a s' run
  cases run

theorem bind (hx : g.Repeats x y s Q)
    (hf : ∀ a t, g.valid t → g.le s t → Q a t → g.Repeats (f a) (f' a) t R) :
    g.Repeats (x >>= f) (y >>= f') s R := by
  intro hs b s' run
  obtain ⟨a, t, first, second⟩ := exists_of_bind_eq_ok run
  obtain ⟨ht, le, hQ, again⟩ := hx hs a t first
  obtain ⟨hs', le', hR, again'⟩ := hf a t ht le hQ ht b s' second
  refine ⟨hs', g.trans le le', hR, fun u same above => ?_⟩
  obtain ⟨u', first', same', follows⟩ := again u same (g.above_mono le' above)
  obtain ⟨u'', second', same'', follows'⟩ := again' u' same' (g.above_follows le' above follows)
  exact ⟨u'', (bind_eq_of_ok first').trans second', same'', g.follows_trans le' follows follows'⟩

theorem map {h : α → β} (hx : g.Repeats x y s Q)
    (hR : ∀ a t, g.valid t → g.le s t → Q a t → R (h a) t) :
    g.Repeats (h <$> x) (h <$> y) s R := by
  rw [map_eq_pure_bind, map_eq_pure_bind]
  exact hx.bind fun a t ht le hQ => .pure fun _ => hR a t ht le hQ

/-- A computation may look at its state before it goes on, and does so again the second time. -/
theorem look (hx : x' s = x s)
    (h : ∀ u, g.same s u → g.above s u → ∃ y, y' u = y u ∧ g.Repeats x y s Q) :
    g.Repeats x' y' s Q := by
  intro hs a s' run
  rw [hx] at run
  obtain ⟨y, -, here⟩ := h s (g.same_refl hs) (g.above_refl s)
  obtain ⟨valid, le, hQ, -⟩ := here hs a s' run
  refine ⟨valid, le, hQ, fun u same above => ?_⟩
  obtain ⟨y, hy, there⟩ := h u same (g.above_mono le above)
  obtain ⟨-, -, -, again⟩ := there hs a s' run
  rw [hy]
  exact again u same above

/-- Along a list, each answer keeps what is known of it until the end. -/
theorem mapM {P : α → σ → Prop} {Q : α → β → σ → Prop} {l : List α}
    (stableP : ∀ a, g.Stable (P a)) (stableQ : ∀ a b, g.Stable (Q a b))
    (step : ∀ a ∈ l, ∀ s, P a s → g.Repeats (f a) (f' a) s (Q a)) (h : ∀ a ∈ l, P a s) :
    g.Repeats (l.mapM f) (l.mapM f') s fun bs t => List.Forall₂ (fun a b => Q a b t) l bs := by
  induction l generalizing s with
  | nil =>
    rw [List.mapM_nil, List.mapM_nil]
    exact .pure fun _ => .nil
  | cons a l ih =>
    rw [List.forall_mem_cons] at step h
    rw [List.mapM_cons, List.mapM_cons]
    refine .assuming fun hs => (step.1 s h.1).bind fun b t ht le hb => ?_
    refine (ih step.2 fun a' ha' => stableP a' hs le (h.2 a' ha')).bind fun bs u _ le' hbs => ?_
    exact .pure fun _ => .cons (stableQ a b ht le' hb) hbs

end Repeats

variable (g) in
/-- A computation that repeats from any state on. -/
def Recurs (x : EStateM ε σ α) : Prop := ∀ s, g.Repeats x x s fun _ _ => True

namespace Recurs

theorem pure (a : α) : g.Recurs (pure a : EStateM ε σ α) := fun _ => .pure fun _ => trivial

theorem throw (e : ε) : g.Recurs (throw e : EStateM ε σ α) := fun _ => .throw e

theorem ofExcept (x : Except ε α) : g.Recurs (ofExcept x : EStateM ε σ α) := by
  cases x with
  | ok a => exact .pure a
  | error e => exact .throw e

theorem bind (hx : g.Recurs x) (hf : ∀ a, g.Recurs (f a)) : g.Recurs (x >>= f) :=
  fun s => (hx s).bind fun a t _ _ _ => hf a t

theorem mapM (hf : ∀ a, g.Recurs (f a)) (as : List α) : g.Recurs (as.mapM f) := by
  induction as with
  | nil =>
    rw [List.mapM_nil]
    exact .pure []
  | cons a as ih =>
    rw [List.mapM_cons]
    exact (hf a).bind fun b => ih.bind fun bs => .pure (b :: bs)

end Recurs

end Repetition

/-! ## Reading -/

section Answers

variable {ε α : Type} {f g : α → Except ε Bool} {l : List α} {b : Bool}

theorem ite_eq_ok_of_imp {c : Prop} [Decidable c] {a : α} {x x' y y' : Except ε α}
    (hx : x = .ok a → x' = .ok a) (hy : y = .ok a → y' = .ok a) :
    (if c then x else y) = .ok a → (if c then x' else y') = .ok a := by
  split
  · exact hx
  · exact hy

theorem allM_eq_ok_of_imp (imp : ∀ a ∈ l, ∀ b, f a = .ok b → g a = .ok b)
    (h : l.allM f = .ok b) : l.allM g = .ok b := by
  induction l with
  | nil => exact h
  | cons a l ih =>
    rw [List.forall_mem_cons] at imp
    rw [List.allM_cons] at h ⊢
    obtain ⟨b', hb', h⟩ := bind_eq_ok_iff.1 h
    refine bind_eq_ok_iff.2 ⟨b', imp.1 b' hb', ?_⟩
    cases b' with
    | true => exact ih imp.2 h
    | false => exact h

theorem anyM_eq_ok_of_imp (imp : ∀ a ∈ l, ∀ b, f a = .ok b → g a = .ok b)
    (h : l.anyM f = .ok b) : l.anyM g = .ok b := by
  induction l with
  | nil => exact h
  | cons a l ih =>
    rw [List.forall_mem_cons] at imp
    rw [List.anyM_cons] at h ⊢
    obtain ⟨b', hb', h⟩ := bind_eq_ok_iff.1 h
    refine bind_eq_ok_iff.2 ⟨b', imp.1 b' hb', ?_⟩
    cases b' with
    | true => exact h
    | false => exact ih imp.2 h

end Answers

namespace Store

variable {s t : Store} {k : Connective} {n : Node} {l : List Node} {α β : Type}

/-- What is read of a store is read of every store that has its lists. -/
def Lasting (f : Store → Except Fault α) : Prop :=
  ∀ s t a, s.PartOf t → f s = .ok a → f t = .ok a

theorem lasting_const (x : Except Fault α) : Lasting fun _ => x := fun _ _ _ _ h => h

theorem Lasting.bind {f : Store → Except Fault α} {g : α → Store → Except Fault β}
    (hf : Lasting f) (hg : ∀ a, Lasting (g a)) : Lasting fun s => f s >>= fun a => g a s := by
  intro s t b part h
  obtain ⟨a, ha, h⟩ := bind_eq_ok_iff.1 h
  exact bind_eq_ok_iff.2 ⟨a, hf s t a part ha, hg a s t b part h⟩

theorem Lasting.ite {c : Prop} [Decidable c] {f g : Store → Except Fault α} (hf : Lasting f)
    (hg : Lasting g) : Lasting fun s => if c then f s else g s :=
  fun s t a part => ite_eq_ok_of_imp (hf s t a part) (hg s t a part)

theorem lasting_members (n : Node) : Lasting (·.members n) :=
  fun _ _ _ part h => members_of_partOf part h

section Compare

variable {fuel fuel' : Nat} {a b : Node} {yes : Bool} {f g : Node → Except Fault Bool}

theorem members_allM_of_partOf (part : s.PartOf t) (imp : ∀ m b, f m = .ok b → g m = .ok b)
    (h : (do (← s.members n).allM f) = .ok yes) : (do (← t.members n).allM g) = .ok yes := by
  obtain ⟨ms, hms, h⟩ := bind_eq_ok_iff.1 h
  exact bind_eq_ok_iff.2
    ⟨ms, members_of_partOf part hms, allM_eq_ok_of_imp (fun m _ => imp m) h⟩

theorem members_anyM_of_partOf (part : s.PartOf t) (imp : ∀ m b, f m = .ok b → g m = .ok b)
    (h : (do (← s.members n).anyM f) = .ok yes) : (do (← t.members n).anyM g) = .ok yes := by
  obtain ⟨ms, hms, h⟩ := bind_eq_ok_iff.1 h
  exact bind_eq_ok_iff.2
    ⟨ms, members_of_partOf part hms, anyM_eq_ok_of_imp (fun m _ => imp m) h⟩

/-- An answer is the same where more levels may be looked at. -/
theorem impliesWithin_of_partOf (part : s.PartOf t) (more : fuel ≤ fuel')
    (h : s.impliesWithin fuel a b = .ok yes) : t.impliesWithin fuel' a b = .ok yes := by
  induction fuel generalizing fuel' a b yes with
  | zero => cases h
  | succ fuel ih =>
    obtain ⟨fuel', rfl⟩ : ∃ i, fuel' = i + 1 := ⟨fuel' - 1, by omega⟩
    have left : ∀ m b', s.impliesWithin fuel m b = .ok b' → t.impliesWithin fuel' m b = .ok b' :=
      fun _ _ => ih (Nat.le_of_succ_le_succ more)
    have right : ∀ m b', s.impliesWithin fuel a m = .ok b' → t.impliesWithin fuel' a m = .ok b' :=
      fun _ _ => ih (Nat.le_of_succ_le_succ more)
    unfold impliesWithin at h ⊢
    revert h
    refine ite_eq_ok_of_imp id (ite_eq_ok_of_imp id ?_)
    refine ite_eq_ok_of_imp (members_allM_of_partOf part right) ?_
    refine ite_eq_ok_of_imp (members_allM_of_partOf part left) ?_
    refine ite_eq_ok_of_imp (members_anyM_of_partOf part left) ?_
    exact ite_eq_ok_of_imp (members_anyM_of_partOf part right) id

theorem contradictsWithin_of_partOf (part : s.PartOf t) (more : fuel ≤ fuel')
    (h : s.contradictsWithin fuel a b = .ok yes) : t.contradictsWithin fuel' a b = .ok yes := by
  induction fuel generalizing fuel' a b yes with
  | zero => cases h
  | succ fuel ih =>
    obtain ⟨fuel', rfl⟩ : ∃ i, fuel' = i + 1 := ⟨fuel' - 1, by omega⟩
    have left : ∀ m b',
        s.contradictsWithin fuel m b = .ok b' → t.contradictsWithin fuel' m b = .ok b' :=
      fun _ _ => ih (Nat.le_of_succ_le_succ more)
    have right : ∀ m b',
        s.contradictsWithin fuel m a = .ok b' → t.contradictsWithin fuel' m a = .ok b' :=
      fun _ _ => ih (Nat.le_of_succ_le_succ more)
    unfold contradictsWithin at h ⊢
    revert h
    refine ite_eq_ok_of_imp id (ite_eq_ok_of_imp id ?_)
    refine ite_eq_ok_of_imp (members_anyM_of_partOf part left) ?_
    refine ite_eq_ok_of_imp (members_anyM_of_partOf part right) ?_
    refine ite_eq_ok_of_imp (members_allM_of_partOf part left) ?_
    exact ite_eq_ok_of_imp (members_allM_of_partOf part right) id

theorem pairDepth_mono (part : s.PartOf t) : s.pairDepth ≤ t.pairDepth := by
  have side : 2 * s.size + 1 ≤ 2 * t.size + 1 := by have := part.size_le; omega
  exact Nat.succ_le_succ (Nat.mul_le_mul (Nat.mul_le_mul_left 2 side) side)

theorem lasting_implies (a b : Node) : Lasting (·.implies a b) :=
  fun _ _ _ part h => impliesWithin_of_partOf part (pairDepth_mono part) h

theorem lasting_contradicts (a b : Node) : Lasting (·.contradicts a b) :=
  fun _ _ _ part h => contradictsWithin_of_partOf part (pairDepth_mono part) h

theorem lasting_settledBy (n : Node) (l : List Node) : Lasting (·.settledBy n l) := by
  induction l with
  | nil => exact lasting_const _
  | cons a l ih =>
    refine (lasting_implies a n).bind fun implied => .ite (lasting_const _) ?_
    exact (lasting_contradicts a n).bind fun contradicted => .ite (lasting_const _) ih

theorem lasting_weigh (n : Node) : Lasting (·.weigh n) :=
  .ite ((lasting_members n).bind fun _ => lasting_const _) (lasting_const _)

theorem lasting_adviseImplied (k : Connective) (a b : Node) : Lasting (·.adviseImplied k a b) := by
  refine (lasting_implies a b).bind fun forth => (lasting_implies b a).bind fun back => ?_
  have equivalent : Lasting (·.adviseEquivalent a b) :=
    (lasting_weigh a).bind fun _ => (lasting_weigh b).bind fun _ => lasting_const _
  match forth, back, k with
  | true, true, _ => exact equivalent
  | true, false, .and => exact lasting_const _
  | true, false, .or => exact lasting_const _
  | false, true, .and => exact lasting_const _
  | false, true, .or => exact lasting_const _
  | false, false, _ => exact lasting_const _

theorem lasting_advise (k : Connective) (a b : Node) : Lasting (·.advise k a b) := by
  refine .ite (lasting_const _) (.ite (lasting_const _) (.ite (lasting_const _)
    (.ite (lasting_const _) (.ite (lasting_const _) (.ite (lasting_const _) ?_)))))
  refine .ite ?_ (lasting_adviseImplied k a b)
  exact (lasting_contradicts a b).bind fun contradicted =>
    .ite (lasting_const _) (lasting_adviseImplied k a b)

end Compare

/-! ## Joining -/

variable {s' t' u : Store}

/-- A store that is at `t` may come to have the lists of `s`: each of them is there under its
number, or it is not there and its number is not issued. -/
def Admits (t s : Store) : Prop :=
  ∀ {id l}, s.list? id = some l → t.list? id = some l ∨ t.size ≤ id ∧ t.find? l = none

theorem PartOf.admits (h : s.PartOf t) : t.Admits s := fun hl => .inl (h.list?_of hl)

theorem Admits.mono (h : u.Admits t) (le : s.Extends t) : u.Admits s := fun hl => h (le.list? hl)

/-- From `t` to `t'` only lists of `s` were added. -/
structure Follows (s t t' : Store) : Prop where
  eq_of_partOf : s.PartOf t → t' = t
  admits : ∀ {u}, s.Extends u → t.Admits u → t'.Admits u

theorem Follows.refl (s t : Store) : s.Follows t t := ⟨fun _ => rfl, fun _ h => h⟩

theorem Follows.trans {t'' : Store} (le : s.Extends u) (h : s.Follows t t')
    (h' : u.Follows t' t'') : u.Follows t t'' where
  eq_of_partOf part := by
    obtain rfl := h.eq_of_partOf (le.partOf.trans part)
    exact h'.eq_of_partOf part
  admits le' room := h'.admits le' (h.admits (le.trans le') room)

theorem find?_push_of_ne {new : s.find? l = none} {l' : List Node} (ne : l' ≠ l) :
    (s.push l new).find? l' = s.find? l' :=
  Raw.find?_push.trans (if_neg ne)

theorem PartOf.push {new : s.find? l = none} (part : s.PartOf t)
    (there : t.list? s.size = some l) : (s.push l new).PartOf t where
  size_le := by
    rw [size_push]
    exact t.lt_size_of_list? there
  list?_of {id l'} hl' := by
    rw [list?_push] at hl'
    split at hl'
    · next eq =>
      cases hl'
      rw [eq, there]
    · exact part.list?_of hl'

/-- A list that is new in both of two stores can be added to both. -/
theorem follows_push {new : s.find? l = none} {new' : t.find? l = none} (size : t.size = s.size) :
    (s.push l new).Follows t (t.push l new') where
  eq_of_partOf part := by
    have here : (s.push l new).list? s.size = some l := by rw [list?_push, if_pos rfl]
    rw [(t.find?_eq_some_iff l _).2 (part.list?_of here)] at new'
    cases new'
  admits {u} above room := by
    intro i l' hl'
    have here : u.list? s.size = some l := above.list? (by rw [list?_push, if_pos rfl])
    rcases room hl' with there | ⟨le, absent⟩
    · exact .inl (extends_push.list? there)
    by_cases eq : i = s.size
    · subst eq
      cases hl'.symm.trans here
      exact .inl (by rw [list?_push, if_pos size.symm])
    · -- Two lists of one store are different.
      have ne : l' ≠ l := by
        rintro rfl
        exact eq (number_unique hl' here)
      refine .inr ⟨?_, (find?_push_of_ne ne).trans absent⟩
      rw [size_push]
      omega

/-- A list that was registered is registered again under its number. -/
theorem register_again {id : Nat} (h : s.register l = .ok (id, s')) (part : s.PartOf t)
    (room : t.Admits s') :
    ∃ t', t.register l = .ok (id, t') ∧ s'.PartOf t' ∧ s'.Follows t t' := by
  cases hl : l.contains .invalid with
  | true =>
    rw [register_of_invalid hl] at h
    cases h
  | false =>
  cases found : s.find? l with
  | some id' =>
    rw [register_of_find? hl found] at h
    cases h
    have there := part.list?_of ((s.find?_eq_some_iff l id).1 found)
    exact ⟨t, register_of_find? hl ((t.find?_eq_some_iff l id).2 there), part, .refl s t⟩
  | none =>
  rcases register_cases hl found with ⟨few, run⟩ | ⟨-, run⟩
  · rw [run] at h
    cases h
    have here : (s.push l found).list? s.size = some l := by rw [list?_push, if_pos rfl]
    rcases room here with there | ⟨le, new⟩
    · exact ⟨t, register_of_find? hl ((t.find?_eq_some_iff l _).2 there), part.push there,
        .refl _ t⟩
    · have size : t.size = s.size := Nat.le_antisymm le part.size_le
      have there : (t.push l new).list? s.size = some l := by rw [list?_push, if_pos size.symm]
      refine ⟨t.push l new, ?_, (part.trans extends_push.partOf).push there, follows_push size⟩
      rw [register_of_new hl (size ▸ few), size]
  · rw [run] at h
    cases h

theorem wrap_again (h : s.wrap k l = .ok (n, s')) (part : s.PartOf t) (room : t.Admits s') :
    ∃ t', t.wrap k l = .ok (n, t') ∧ s'.PartOf t' ∧ s'.Follows t t' := by
  unfold wrap at h ⊢
  split at h
  · cases h
    exact ⟨t, rfl, part, .refl s t⟩
  · cases h
    exact ⟨t, rfl, part, .refl s t⟩
  · obtain ⟨⟨id, u⟩, registered, h⟩ := bind_eq_ok_iff.1 h
    obtain ⟨m, number, h⟩ := bind_eq_ok_iff.1 h
    cases h
    obtain ⟨t', again, part', follows⟩ := register_again registered part room
    exact ⟨t', bind_eq_ok_iff.2 ⟨(id, t'), again, bind_eq_ok_iff.2 ⟨n, number, rfl⟩⟩, part', follows⟩

theorem lasting_flatten (k : Connective) (l : List Node) : Lasting (·.flatten k l) := by
  induction l with
  | nil => exact lasting_const _
  | cons m l ih =>
    have back (front : List Node) : Lasting fun s => do
        let back ← s.flatten k l
        return front ++ back := ih.bind fun _ => lasting_const _
    exact .ite ((lasting_members m).bind back) ((lasting_const (.ok [m])).bind back)

/-- What was joined is joined again. -/
theorem combine_again (h : s.combine k l = .ok (n, s')) (part : s.PartOf t) (room : t.Admits s') :
    ∃ t', t.combine k l = .ok (n, t') ∧ s'.PartOf t' ∧ s'.Follows t t' := by
  unfold combine at h ⊢
  split at h
  · cases h
  next valid =>
  rw [if_neg valid]
  obtain ⟨flat, hflat, h⟩ := bind_eq_ok_iff.1 h
  have hflat' := lasting_flatten k l s t flat part hflat
  simp only at h
  split at h
  · next absorbing =>
    cases h
    exact ⟨t, bind_eq_ok_iff.2 ⟨flat, hflat', if_pos absorbing⟩, part, .refl s t⟩
  next not_absorbing =>
  split at h
  · next decided =>
    cases h
    refine ⟨t, bind_eq_ok_iff.2 ⟨flat, hflat', ?_⟩, part, .refl s t⟩
    exact (if_neg not_absorbing).trans (if_pos decided)
  next undecided =>
  obtain ⟨t', again, part', follows⟩ := wrap_again h part room
  refine ⟨t', bind_eq_ok_iff.2 ⟨flat, hflat', ?_⟩, part', follows⟩
  exact (if_neg not_absorbing).trans ((if_neg undecided).trans again)

end Store

/-! ## Building -/

namespace Build

variable {α β : Type}

/-- Stores that only lists are added to. -/
def repetition : Repetition Store where
  valid _ := True
  le := Store.Extends
  same := Store.PartOf
  above s t := t.Admits s
  follows := Store.Follows
  refl := .refl
  trans := .trans
  same_refl _ := .refl _
  above_refl s := (Store.PartOf.refl s).admits
  above_mono le above := above.mono le
  above_follows le above follows := follows.admits le above
  follows_refl := .refl
  follows_trans := .trans

/-- A second run from a store with the lists of the first. -/
theorem run_again {x : Build α} (h : repetition.Recurs x) {s s' t : Store} {a : α}
    (run : x s = .ok a s') (le : s'.Extends t) : x t = .ok a t := by
  obtain ⟨-, le', -, again⟩ := h s trivial a s' run
  obtain ⟨t', run', -, follows⟩ := again t (le'.trans le).partOf le.partOf.admits
  rwa [follows.eq_of_partOf le.partOf] at run'

theorem recurs_read {f : Store → Except Fault α} (hf : Store.Lasting f) :
    repetition.Recurs (read f) := by
  intro s _ a s' run
  unfold read at run
  split at run
  · next read_s =>
    cases run
    refine ⟨trivial, .refl s, trivial, fun t part _ => ⟨t, ?_, part, .refl s t⟩⟩
    rw [read, hf s t a part read_s]
  · cases run

theorem recurs_combine (k : Connective) (l : List Node) : repetition.Recurs (combine k l) := by
  intro s _ n s' run
  unfold combine at run
  split at run
  · next eq =>
    cases run
    refine ⟨trivial, Store.extends_combine eq, trivial, fun t part room => ?_⟩
    obtain ⟨t', again, part', follows⟩ := Store.combine_again eq part room
    exact ⟨t', by rw [combine, again], part', follows⟩
  · cases run

theorem recurs_complementOfLeaf (n : Node) : repetition.Recurs (complementOfLeaf n) := by
  have field (x : Except Fault Node) : repetition.Recurs (read fun _ => x) :=
    recurs_read (Store.lasting_const x)
  refine (field _).bind fun negation => (field _).bind fun argument => ?_
  split
  · exact (field _).bind fun reference => recurs_combine _ _
  · exact recurs_combine _ _

theorem recurs_complementWithin (fuel : Nat) (n : Node) :
    repetition.Recurs (complementWithin fuel n) := by
  induction fuel generalizing n with
  | zero => exact .throw _
  | succ fuel ih =>
    rw [complementWithin]
    split
    · exact recurs_read (Store.lasting_const _)
    split
    · exact (recurs_read (Store.lasting_members n)).bind fun ms =>
        (Repetition.Recurs.mapM ih ms).bind fun ms' => recurs_combine _ _
    · exact recurs_complementOfLeaf n

theorem recurs_complement (n : Node) : repetition.Recurs (complement n) :=
  recurs_complementWithin _ n

theorem recurs_knownCheck (n : Node) : repetition.Recurs (knownCheck n) := by
  refine (recurs_read (Store.lasting_const _)).bind fun known => ?_
  split
  · exact (recurs_read (Store.lasting_const _)).bind fun known' => recurs_combine _ _
  · exact .pure known

end Build

/-! ## Passes -/

/-- Passes under budgets of which as much is used. -/
def Work.repetition (v : Vocabulary) : Repetition Work where
  valid w := w.store.Valid v
  le w w' := w.store.Extends w'.store
  same w w' := w'.budget = w.budget ∧ w.store.PartOf w'.store
  above w w' := w'.store.Admits w.store
  follows w t t' := w.store.Follows t.store t'.store
  refl w := .refl w.store
  trans := .trans
  same_refl _ := ⟨rfl, .refl _⟩
  above_refl w := (Store.PartOf.refl w.store).admits
  above_mono le above := above.mono le
  above_follows le above follows := follows.admits le above
  follows_refl w t := .refl w.store t.store
  follows_trans := .trans

namespace Pass

open Store (AtMost TotalAtMost)

variable {v : Vocabulary} {w : Work} {k : Connective} {n : Node} {l : List Node} {c : Nat}
  {α : Type}

theorem repeats_check : (Work.repetition v).Repeats check check w fun _ _ => True := by
  intro hw a w' run
  unfold check at run
  split at run
  · next passed =>
    cases run
    refine ⟨hw, .refl w.store, trivial, fun t ⟨same, part⟩ _ => ?_⟩
    exact ⟨{ t with budget := _ }, by rw [check, same, passed], ⟨rfl, part⟩, .refl _ _⟩
  · cases run

theorem repeats_build {x : Build α} {Q : α → Store → Prop} (recurs : Build.repetition.Recurs x)
    (h : (Store.growth v).Ensures x w.store Q) :
    (Work.repetition v).Repeats (build x) (build x) w fun a w => Q a w.store := by
  obtain ⟨s, budget⟩ := w
  intro hs a w' run
  unfold build at run
  simp only at run
  split at run
  · next eq =>
    cases run
    obtain ⟨valid, le, hQ⟩ := h.of_ok hs eq
    obtain ⟨-, -, -, again⟩ := recurs s trivial a _ eq
    refine ⟨valid, le, hQ, fun ⟨t, budget'⟩ ⟨same, part⟩ room => ?_⟩
    obtain ⟨t', eq', part', follows⟩ := again t part room
    exact ⟨⟨t', budget'⟩, by simp only [build, eq'], ⟨same, part'⟩, follows⟩
  · cases run

theorem repeats_read {f : Store → Except Fault α} {Q : α → Work → Prop} (hf : Store.Lasting f)
    (h : w.store.Valid v → ∀ a, f w.store = .ok a → Q a w) :
    (Work.repetition v).Repeats (read f) (read f) w Q := by
  obtain ⟨s, budget⟩ := w
  intro hs a w' run
  unfold read build Build.read at run
  simp only at run
  cases eq : f s with
  | ok a' =>
    rw [eq] at run
    cases run
    refine ⟨hs, .refl s, h hs a eq, fun ⟨t, budget'⟩ ⟨same, part⟩ _ =>
      ⟨⟨t, budget'⟩, ?_, ⟨same, part⟩, .refl s t⟩⟩
    simp only [read, build, Build.read, hf s t a part eq]
  | error fault =>
    rw [eq] at run
    cases run

theorem repeats_ask {f : Store → Except Fault α} (hf : Store.Lasting f) :
    (Work.repetition v).Repeats (read f) (read f) w fun _ _ => True :=
  repeats_read hf fun _ _ _ => trivial

theorem repeats_combine (h : w.store.TotalAtMost v c l) :
    (Work.repetition v).Repeats (combine k l) (combine k l) w fun n w => w.store.AtMost v c n :=
  repeats_build (Build.recurs_combine k l) (Store.ensures_combine_atMost h)

end Pass

end Criteria

import Mathlib.Data.List.Forall2

/-!
# Computations that only add

Building, and every pass, adds to a state and takes nothing away, whether it comes to an end or
fails. A `Growth` says which states are valid, which are above which, and with what a computation
may fail. `Ensures` says that a computation, started in a valid state, ends in a valid state above
it, and either fails in one of these ways or gives an answer with a given property. What is
*stable*, once true, stays true on the way up, so a fact that one step ensures is there for all
steps after it.

The rules follow the structure of a computation: `Ensures.pure`, `Ensures.throw`, `Ensures.bind`,
`Ensures.mapM`.
-/

namespace Criteria

/-! ## Outcomes -/

section Outcomes

variable {ε α β : Type}

theorem bind_eq_ok_iff {x : Except ε α} {f : α → Except ε β} {b : β} :
    x >>= f = .ok b ↔ ∃ a, x = .ok a ∧ f a = .ok b := by
  cases x with
  | error e => simp [bind, Except.bind]
  | ok a => simp [bind, Except.bind]

theorem bind_eq_of_ok {σ : Type} {x : EStateM ε σ α} {f : α → EStateM ε σ β} {s t : σ} {a : α}
    (h : x s = .ok a t) : (x >>= f) s = f a t := by
  show EStateM.bind x f s = _
  rw [EStateM.bind, h]

theorem bind_eq_of_error {σ : Type} {x : EStateM ε σ α} {f : α → EStateM ε σ β} {s t : σ} {e : ε}
    (h : x s = .error e t) : (x >>= f) s = .error e t := by
  show EStateM.bind x f s = _
  rw [EStateM.bind, h]

theorem mapM_cons_of_ok {σ : Type} {f : α → EStateM ε σ β} {a : α} {l : List α} {b : β}
    {bs : List β} {s t u : σ} (head : f a s = .ok b t) (tail : l.mapM f t = .ok bs u) :
    (a :: l).mapM f s = .ok (b :: bs) u := by
  rw [List.mapM_cons, bind_eq_of_ok head, bind_eq_of_ok tail]
  rfl

theorem exists_of_bind_eq_ok {σ : Type} {x : EStateM ε σ α} {f : α → EStateM ε σ β} {s t : σ}
    {b : β} (h : (x >>= f) s = .ok b t) : ∃ a u, x s = .ok a u ∧ f a u = .ok b t := by
  cases run : x s with
  | error e u =>
    rw [bind_eq_of_error run] at h
    cases h
  | ok a u =>
    rw [bind_eq_of_ok run] at h
    exact ⟨a, u, rfl, h⟩

/-- Two computations in a row fail where the first does or else the second. -/
theorem of_bind_eq_error {σ : Type} {x : EStateM ε σ α} {f : α → EStateM ε σ β} {s t : σ} {e : ε}
    (h : (x >>= f) s = .error e t) :
    x s = .error e t ∨ ∃ a u, x s = .ok a u ∧ f a u = .error e t := by
  cases run : x s with
  | error e' u =>
    rw [bind_eq_of_error run] at h
    cases h
    exact .inl rfl
  | ok a u =>
    rw [bind_eq_of_ok run] at h
    exact .inr ⟨a, u, rfl, h⟩

theorem of_allM {f : α → Except ε Bool} {l : List α} (h : l.allM f = .ok true) :
    ∀ a ∈ l, f a = .ok true := by
  induction l with
  | nil => simp
  | cons a l ih =>
    rw [List.allM_cons, bind_eq_ok_iff] at h
    obtain ⟨b, hb, h⟩ := h
    cases b with
    | false => cases h
    | true =>
      intro x hx
      rcases List.mem_cons.1 hx with rfl | hx
      · exact hb
      · exact ih h x hx

theorem of_anyM {f : α → Except ε Bool} {l : List α} (h : l.anyM f = .ok true) :
    ∃ a ∈ l, f a = .ok true := by
  induction l with
  | nil => cases h
  | cons a l ih =>
    rw [List.anyM_cons, bind_eq_ok_iff] at h
    obtain ⟨b, hb, h⟩ := h
    cases b with
    | false =>
      obtain ⟨x, hx, hf⟩ := ih h
      exact ⟨x, List.mem_cons_of_mem _ hx, hf⟩
    | true => exact ⟨a, List.mem_cons_self, hb⟩

theorem mapM_congr {m : Type → Type} [Monad m] [LawfulMonad m] {f g : α → m β} {l : List α}
    (h : ∀ a ∈ l, f a = g a) : l.mapM f = l.mapM g := by
  induction l with
  | nil => rw [List.mapM_nil, List.mapM_nil]
  | cons a l ih =>
    rw [List.forall_mem_cons] at h
    rw [List.mapM_cons, List.mapM_cons, h.1, ih h.2]

/-- Questions that are all answered are answered together. -/
theorem allM_eq_ok {f : α → Except ε Bool} {p : α → Bool} {l : List α}
    (h : ∀ a ∈ l, f a = .ok (p a)) : l.allM f = .ok (l.all p) := by
  induction l with
  | nil => rfl
  | cons a l ih =>
    rw [List.forall_mem_cons] at h
    rw [List.allM_cons, h.1, List.all_cons]
    cases p a with
    | false => rfl
    | true => exact ih h.2

theorem anyM_eq_ok {f : α → Except ε Bool} {p : α → Bool} {l : List α}
    (h : ∀ a ∈ l, f a = .ok (p a)) : l.anyM f = .ok (l.any p) := by
  induction l with
  | nil => rfl
  | cons a l ih =>
    rw [List.forall_mem_cons] at h
    rw [List.anyM_cons, h.1, List.any_cons]
    cases p a with
    | false => exact ih h.2
    | true => rfl

theorem exists_allM_eq_ok {f : α → Except ε Bool} {l : List α} (h : ∀ a ∈ l, ∃ b, f a = .ok b) :
    ∃ b, l.allM f = .ok b := by
  choose! p hp using h
  exact ⟨l.all p, allM_eq_ok hp⟩

theorem exists_anyM_eq_ok {f : α → Except ε Bool} {l : List α} (h : ∀ a ∈ l, ∃ b, f a = .ok b) :
    ∃ b, l.anyM f = .ok b := by
  choose! p hp using h
  exact ⟨l.any p, anyM_eq_ok hp⟩

/-- What each step of a fold keeps, the fold keeps. -/
theorem of_foldlM {P : β → Prop} {f : β → α → Except ε β} {l : List α} {b b' : β}
    (step : ∀ b a b', P b → f b a = .ok b' → P b') (h : l.foldlM f b = .ok b') (hb : P b) :
    P b' := by
  induction l generalizing b with
  | nil =>
    cases h
    exact hb
  | cons a l ih =>
    rw [List.foldlM_cons, bind_eq_ok_iff] at h
    obtain ⟨c, hc, h⟩ := h
    exact ih h (step b a c hb hc)

theorem exists_of_mem_forall₂ {R : α → β → Prop} {l : List α} {l' : List β}
    (h : List.Forall₂ R l l') {b : β} (hb : b ∈ l') : ∃ a ∈ l, R a b := by
  induction h with
  | nil => cases hb
  | cons head _ ih =>
    rcases List.mem_cons.1 hb with rfl | hb
    · exact ⟨_, List.mem_cons_self, head⟩
    · obtain ⟨a, ha, hR⟩ := ih hb
      exact ⟨a, List.mem_cons_of_mem _ ha, hR⟩

/-- What follows for the elements of a list follows along the list. -/
theorem forall₂_imp_of_mem {R S : α → β → Prop} {l : List α} {l' : List β}
    (h : List.Forall₂ R l l') (imp : ∀ a ∈ l, ∀ b, R a b → S a b) : List.Forall₂ S l l' := by
  have paired := (List.forall₂_and_left (p := (· ∈ l)) l l').2 ⟨fun _ ha => ha, h⟩
  exact paired.imp fun a b ⟨ha, hR⟩ => imp a ha b hR

theorem forall₂_imp_of_mem_mem {R S : α → β → Prop} {l : List α} {l' : List β}
    (h : List.Forall₂ R l l') (imp : ∀ a ∈ l, ∀ b ∈ l', R a b → S a b) :
    List.Forall₂ S l l' := by
  have left : List.Forall₂ (fun a b => a ∈ l ∧ R a b) l l' :=
    (List.forall₂_and_left (p := (· ∈ l)) l l').2 ⟨fun _ ha => ha, h⟩
  exact (forall₂_imp_of_mem left.flip fun b hb a ⟨ha, hR⟩ => imp a ha b hb hR).flip

theorem forall₂_comp {γ : Type} {R : α → β → Prop} {S : β → γ → Prop} {T : α → γ → Prop}
    {l : List α} {l' : List β} {l'' : List γ} (h : List.Forall₂ R l l')
    (h' : List.Forall₂ S l' l'') (imp : ∀ {a b c}, R a b → S b c → T a c) :
    List.Forall₂ T l l'' := by
  induction h generalizing l'' with
  | nil =>
    cases h'
    exact .nil
  | cons head _ ih =>
    cases h' with
    | cons head' tail' => exact .cons (imp head head') (ih tail')

/-- What holds along two lists for all values of a parameter may be said of each pair. -/
theorem forall₂_forall {ι : Type} [Nonempty ι] {R : ι → α → β → Prop} {l : List α} {l' : List β}
    (h : ∀ i, List.Forall₂ (R i) l l') : List.Forall₂ (fun a b => ∀ i, R i a b) l l' := by
  obtain ⟨i₀⟩ := ‹Nonempty ι›
  refine List.forall₂_iff_get.2 ⟨(h i₀).length_eq, fun k hk hk' i => ?_⟩
  exact (List.forall₂_iff_get.1 (h i)).2 k hk hk'

end Outcomes

/-! ## Growth -/

/-- Which states are valid, which are above which, and which failures may leave which states. -/
structure Growth (ε σ : Type) where
  valid : σ → Prop
  le : σ → σ → Prop
  fails : ε → σ → Prop
  refl : ∀ s, le s s
  trans : ∀ {s t u}, le s t → le t u → le s u

namespace Growth

variable {σ τ ε α β : Type}

/-- The growth of a part of a state. -/
def comap (f : τ → σ) (g : Growth ε σ) : Growth ε τ where
  valid s := g.valid (f s)
  le s t := g.le (f s) (f t)
  fails e s := g.fails e (f s)
  refl s := g.refl (f s)
  trans h h' := g.trans h h'

/-- The growth that may fail in any way. -/
def lenient (g : Growth ε σ) : Growth ε σ := { g with fails := fun _ _ => True }

variable (g : Growth ε σ)

/-- Once true of a valid state, a property stays true of all states above it. -/
def Stable (P : σ → Prop) : Prop := ∀ {s t}, g.valid s → g.le s t → P s → P t

/-- From a valid state, a computation ends in a valid state above it, an answer that it gives has
property `Q`, and a failure is one that may be. -/
def Ensures (x : EStateM ε σ α) (s : σ) (Q : α → σ → Prop) : Prop :=
  g.valid s → match x s with
    | .ok a t => g.valid t ∧ g.le s t ∧ Q a t
    | .error e t => g.valid t ∧ g.le s t ∧ g.fails e t

variable {g} {x : EStateM ε σ α} {f : α → EStateM ε σ β} {s : σ}

namespace Ensures

variable {Q Q' : α → σ → Prop} {R : β → σ → Prop}

theorem of_ok (h : g.Ensures x s Q) (hs : g.valid s) {a : α} {t : σ} (hx : x s = .ok a t) :
    g.valid t ∧ g.le s t ∧ Q a t := by
  have := h hs
  rwa [hx] at this

theorem of_error (h : g.Ensures x s Q) (hs : g.valid s) {e : ε} {t : σ} (hx : x s = .error e t) :
    g.valid t ∧ g.le s t ∧ g.fails e t := by
  have := h hs
  rwa [hx] at this

/-- What is ensured of the answers of one computation under two growths. -/
theorem and {g' : Growth ε σ} (h : g.Ensures x s Q) (h' : g'.Ensures x s Q') (hs' : g'.valid s) :
    g.Ensures x s fun a t => Q a t ∧ Q' a t := by
  intro hs
  cases hx : x s with
  | ok a t =>
    obtain ⟨valid, le, hQ⟩ := h.of_ok hs hx
    exact ⟨valid, le, hQ, (h'.of_ok hs' hx).2.2⟩
  | error e t => exact h.of_error hs hx

/-- What cannot fail gives an answer. -/
theorem exists_ok (h : g.Ensures x s Q) (hs : g.valid s) (never : ∀ e t, ¬ g.fails e t) :
    ∃ a t, x s = .ok a t ∧ g.valid t ∧ g.le s t ∧ Q a t := by
  cases hx : x s with
  | ok a t => exact ⟨a, t, rfl, h.of_ok hs hx⟩
  | error e t => exact (never e t (h.of_error hs hx).2.2).elim

/-- That the state is valid may be assumed. -/
theorem assuming (h : g.valid s → g.Ensures x s Q) : g.Ensures x s Q := fun hs => h hs hs

theorem lenient (h : g.Ensures x s Q) : g.lenient.Ensures x s Q := by
  intro hs
  cases hx : x s with
  | ok a t => exact h.of_ok hs hx
  | error e t =>
    obtain ⟨valid, le, -⟩ := h.of_error hs hx
    exact ⟨valid, le, trivial⟩

theorem of_run_eq {y : EStateM ε σ α} (h : g.Ensures x s Q) (eq : y s = x s) :
    g.Ensures y s Q := by
  intro hs
  rw [eq]
  exact h hs

theorem pure {a : α} (h : g.valid s → Q a s) : g.Ensures (pure a : EStateM ε σ α) s Q :=
  fun hs => ⟨hs, g.refl s, h hs⟩

theorem get {R : σ → σ → Prop} (h : g.valid s → R s s) :
    g.Ensures (get : EStateM ε σ σ) s R := fun hs => ⟨hs, g.refl s, h hs⟩

theorem throw {e : ε} (h : g.valid s → g.fails e s) :
    g.Ensures (throw e : EStateM ε σ α) s Q := fun hs => ⟨hs, g.refl s, h hs⟩

theorem bind (hx : g.Ensures x s Q)
    (hf : ∀ a t, g.valid t → g.le s t → Q a t → g.Ensures (f a) t R) :
    g.Ensures (x >>= f) s R := by
  intro hs
  show match EStateM.bind x f s with
    | .ok b t => g.valid t ∧ g.le s t ∧ R b t
    | .error e t => g.valid t ∧ g.le s t ∧ g.fails e t
  unfold EStateM.bind
  cases h : x s with
  | error e t => exact hx.of_error hs h
  | ok a t =>
    obtain ⟨ht, le, hQ⟩ := hx.of_ok hs h
    have next := hf a t ht le hQ
    simp only
    cases h' : f a t with
    | error e u =>
      obtain ⟨hu, le', fails⟩ := next.of_error ht h'
      exact ⟨hu, g.trans le le', fails⟩
    | ok b u =>
      obtain ⟨hu, le', hR⟩ := next.of_ok ht h'
      exact ⟨hu, g.trans le le', hR⟩

theorem mono (hx : g.Ensures x s Q) (h : ∀ a t, g.valid t → g.le s t → Q a t → Q' a t) :
    g.Ensures x s Q' := by
  intro hs
  cases hr : x s with
  | error e t => exact hx.of_error hs hr
  | ok a t =>
    obtain ⟨ht, le, hQ⟩ := hx.of_ok hs hr
    exact ⟨ht, le, h a t ht le hQ⟩

theorem map {f : α → β} (hx : g.Ensures x s Q) (h : ∀ a t, g.valid t → g.le s t → Q a t → R (f a) t) :
    g.Ensures (f <$> x) s R := by
  rw [map_eq_pure_bind]
  exact hx.bind fun a t ht le hQ => .pure fun _ => h a t ht le hQ

/-- A computation on a part of the state: `s` is the part, and `put` puts it back. -/
theorem lift {ε' : Type} {g' : Growth ε' τ} {y : EStateM ε' τ α} {t : τ} {R : α → τ → Prop}
    (put : σ → τ) (wrap : ε → ε') (hx : g.Ensures x s Q)
    (hy : y t = match x s with
      | .ok a s => .ok a (put s)
      | .error e s => .error (wrap e) (put s))
    (down : g'.valid t → g.valid s)
    (up : g'.valid t → ∀ s', g.valid s' → g.le s s' → g'.valid (put s') ∧ g'.le t (put s'))
    (hE : ∀ e s', g.valid s' → g.fails e s' → g'.fails (wrap e) (put s'))
    (hR : ∀ a s', g.valid s' → g.le s s' → Q a s' → R a (put s')) : g'.Ensures y t R := by
  intro ht
  rw [hy]
  cases hr : x s with
  | error e s' =>
    obtain ⟨valid, le, fails⟩ := hx.of_error (down ht) hr
    obtain ⟨valid', le'⟩ := up ht s' valid le
    exact ⟨valid', le', hE e s' valid fails⟩
  | ok a s' =>
    obtain ⟨valid, le, hQ⟩ := hx.of_ok (down ht) hr
    obtain ⟨valid', le'⟩ := up ht s' valid le
    exact ⟨valid', le', hR a s' valid le hQ⟩

/-- Along a list, each answer keeps what was ensured of it until the end. -/
theorem mapM {P : α → σ → Prop} {Q : α → β → σ → Prop} {l : List α}
    (stableP : ∀ a, g.Stable (P a)) (stableQ : ∀ a b, g.Stable (Q a b))
    (step : ∀ a ∈ l, ∀ s, P a s → g.Ensures (f a) s (Q a)) (h : ∀ a ∈ l, P a s) :
    g.Ensures (l.mapM f) s fun bs t => List.Forall₂ (fun a b => Q a b t) l bs := by
  induction l generalizing s with
  | nil =>
    rw [List.mapM_nil]
    exact .pure fun _ => .nil
  | cons a l ih =>
    rw [List.mapM_cons]
    intro hs
    refine (step a (by simp) s (h a (by simp))).bind (fun b t ht le hb => ?_) hs
    refine (ih (fun a' h' => step a' (by simp [h'])) fun a' h' =>
      stableP a' hs le (h a' (by simp [h']))).bind fun bs u _ le' hbs => ?_
    exact .pure fun _ => .cons (stableQ a b ht le' hb) hbs

/-- Along a list on which nothing is asked, each answer keeps what was ensured of it. -/
theorem forall_mapM {Q : β → σ → Prop} {l : List α} (stable : ∀ b, g.Stable (Q b))
    (step : ∀ a ∈ l, ∀ s, g.Ensures (f a) s Q) :
    g.Ensures (l.mapM f) s fun bs t => ∀ b ∈ bs, Q b t := by
  have each : g.Ensures (l.mapM f) s fun bs t => List.Forall₂ (fun _ b => Q b t) l bs :=
    .mapM (P := fun _ _ => True) (fun _ _ _ _ _ _ => trivial) (fun _ => stable)
      (fun a ha s _ => step a ha s) fun _ _ => trivial
  refine each.mono fun bs t _ _ h b hb => ?_
  obtain ⟨-, -, hQ⟩ := exists_of_mem_forall₂ h hb
  exact hQ

/-- Along a list whose elements are in the answers, the answers have the list in them. -/
theorem map_mapM {P : α → σ → Prop} {Q : β → σ → Prop} {part : β → α} {l : List α}
    (stableP : ∀ a, g.Stable (P a)) (stableQ : ∀ b, g.Stable (Q b))
    (step : ∀ a ∈ l, ∀ s, P a s → g.Ensures (f a) s fun b s => part b = a ∧ Q b s)
    (h : ∀ a ∈ l, P a s) :
    g.Ensures (l.mapM f) s fun bs t => bs.map part = l ∧ ∀ b ∈ bs, Q b t := by
  have each : g.Ensures (l.mapM f) s fun bs t =>
      List.Forall₂ (fun a b => part b = a ∧ Q b t) l bs :=
    .mapM stableP (fun _ b _ _ hs le h => ⟨h.1, stableQ b hs le h.2⟩) step h
  refine each.mono fun bs t _ _ h => ⟨?_, fun b hb => ?_⟩
  · rw [← List.forall₂_eq_eq_eq, List.forall₂_map_left_iff]
    exact h.flip.imp fun _ _ h => h.1
  · obtain ⟨-, -, -, hQ⟩ := exists_of_mem_forall₂ h hb
    exact hQ

end Ensures

end Growth

end Criteria

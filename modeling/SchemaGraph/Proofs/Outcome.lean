import Mathlib.Data.List.Forall2
import SchemaGraph.DeclarationSet

/-! How a computation with faults can end, with a state and without.  `Settles` and `Ends` bound both
endings at once and are proved along a computation; `Yields` takes a computation that came to an answer
apart into its steps. -/
namespace SchemaGraph

/-- `r` is an answer in `Q` or a fault in `E`. -/
def Settles {ε α : Type} (r : Except ε α) (Q : α → Prop) (E : ε → Prop) : Prop :=
  match r with
  | .ok a => Q a
  | .error e => E e

namespace Settles

variable {ε α β : Type} {x : Except ε α} {f : α → Except ε β} {Q Q' : α → Prop} {E E' : ε → Prop}

@[simp] theorem pure_iff {a : α} : Settles (pure a : Except ε α) Q E ↔ Q a := Iff.rfl

@[simp] theorem throw_iff {e : ε} : Settles (throw e : Except ε α) Q E ↔ E e := Iff.rfl

theorem bind_iff {Q : β → Prop} :
    Settles (x >>= f) Q E ↔ Settles x (fun a => Settles (f a) Q E) E := by
  cases x <;> rfl

theorem map_iff {g : α → β} {Q : β → Prop} :
    Settles (g <$> x) Q E ↔ Settles x (fun a => Q (g a)) E := by
  cases x <;> rfl

theorem mapError_iff {ε' : Type} {f : ε → ε'} {E : ε' → Prop} :
    Settles (x.mapError f) Q E ↔ Settles x Q fun e => E (f e) := by
  cases x <;> rfl

theorem mono (h : Settles x Q E) (hQ : ∀ a, Q a → Q' a) (hE : ∀ e, E e → E' e) :
    Settles x Q' E' := by
  cases x with
  | ok a => exact hQ a h
  | error e => exact hE e h

theorem bind {Q' : β → Prop} (hx : Settles x Q E) (hf : ∀ a, Q a → Settles (f a) Q' E) :
    Settles (x >>= f) Q' E :=
  bind_iff.2 (hx.mono hf fun _ => id)

theorem trivial : Settles x (fun _ => True) fun _ => True := by
  cases x <;> exact True.intro

theorem answer {a : α} (h : Settles x Q E) (hx : x = .ok a) : Q a := by
  subst hx
  exact h

theorem fault {e : ε} (h : Settles x Q E) (hx : x = .error e) : E e := by
  subst hx
  exact h

theorem foldlM {g : β → α → Except ε β} {I : β → Prop} :
    ∀ {l : List α} {b : β}, I b → (∀ a ∈ l, ∀ b, I b → Settles (g b a) I E) →
      Settles (l.foldlM g b) I E
  | [], _, h, _ => h
  | a :: l, b, h, step => by
    rw [List.foldlM_cons]
    exact (step a (by simp) b h).bind fun b hb => foldlM hb fun a ha => step a (by simp [ha])

theorem forM {g : α → Except ε Unit} {P : α → Prop} {l : List α}
    (h : ∀ a ∈ l, Settles (g a) (fun _ => P a) E) : Settles (l.forM g) (fun _ => ∀ a ∈ l, P a) E := by
  induction l with
  | nil => exact fun _ ha => absurd ha List.not_mem_nil
  | cons a l ih =>
    obtain ⟨first, rest⟩ := List.forall_mem_cons.1 h
    change Settles (g a >>= fun _ => l.forM g) _ _
    exact first.bind fun _ ha => (ih rest).mono (fun _ hl => List.forall_mem_cons.2 ⟨ha, hl⟩) fun _ => id

theorem mapM {g : α → Except ε β} {P : β → Prop} {l : List α} (h : ∀ a ∈ l, Settles (g a) P E) :
    Settles (l.mapM g) (fun bs => ∀ b ∈ bs, P b) E := by
  induction l with
  | nil => exact fun _ hb => absurd hb List.not_mem_nil
  | cons a l ih =>
    obtain ⟨first, rest⟩ := List.forall_mem_cons.1 h
    rw [List.mapM_cons]
    exact first.bind fun b hb => (ih rest).bind fun bs hbs => List.forall_mem_cons.2 ⟨hb, hbs⟩

end Settles

theorem exists_eq_ok_of_any {ε α : Type} {x : Except ε α} {p : α → Bool} (h : x.toOption.any p = true) :
    ∃ a, x = .ok a ∧ p a = true := by
  cases x with
  | ok a => exact ⟨a, rfl, h⟩
  | error e => cases h

theorem bind_eq_ok_iff {ε α β : Type} {x : Except ε α} {f : α → Except ε β} {b : β} :
    x >>= f = .ok b ↔ ∃ a, x = .ok a ∧ f a = .ok b := by
  cases x with
  | ok a => exact ⟨fun h => ⟨a, rfl, h⟩, fun ⟨_, ha, h⟩ => Except.ok.inj ha ▸ h⟩
  | error e => exact ⟨nofun, nofun⟩

theorem seq_eq_ok_iff {ε β : Type} {x : Except ε Unit} {y : Except ε β} {b : β} :
    (x >>= fun _ => y) = .ok b ↔ x = .ok () ∧ y = .ok b := by
  rw [bind_eq_ok_iff]
  exact ⟨fun ⟨_, hx, hy⟩ => ⟨hx, hy⟩, fun ⟨hx, hy⟩ => ⟨(), hx, hy⟩⟩

theorem map_eq_ok_iff {ε α β : Type} {x : Except ε α} {f : α → β} {b : β} :
    f <$> x = .ok b ↔ ∃ a, x = .ok a ∧ f a = b := by
  cases x with
  | ok a => exact ⟨fun h => ⟨a, rfl, Except.ok.inj h⟩, fun ⟨_, ha, h⟩ => by cases ha; exact congrArg _ h⟩
  | error e => exact ⟨nofun, nofun⟩

theorem mapError_eq_ok_iff {ε ε' α : Type} {x : Except ε α} {f : ε → ε'} {a : α} :
    x.mapError f = .ok a ↔ x = .ok a := by
  cases x with
  | ok b => exact Iff.intro (fun h => by cases h; rfl) (fun h => by cases h; rfl)
  | error e => exact Iff.intro nofun nofun

theorem forM_eq_ok_iff {ε α : Type} {f : α → Except ε Unit} {l : List α} :
    l.forM f = .ok () ↔ ∀ a ∈ l, f a = .ok () := by
  induction l with
  | nil => simp [pure, Except.pure]
  | cons a l ih =>
    change (f a >>= fun _ => l.forM f) = .ok () ↔ _
    rw [seq_eq_ok_iff, ih, List.forall_mem_cons]

theorem exists_mapM_eq_ok {ε α β : Type} {f : α → Except ε β} {l : List α}
    (h : ∀ a ∈ l, ∃ b, f a = .ok b) : ∃ bs, l.mapM f = .ok bs := by
  induction l with
  | nil => exact ⟨[], rfl⟩
  | cons a l ih =>
    rw [List.forall_mem_cons] at h
    obtain ⟨b, hb⟩ := h.1
    obtain ⟨bs, hbs⟩ := ih h.2
    refine ⟨b :: bs, ?_⟩
    rw [List.mapM_cons, hb]
    change (l.mapM f >>= fun bs => pure (b :: bs)) = _
    rw [hbs]
    rfl

theorem mapM_eq_ok_iff {ε α β : Type} {f : α → Except ε β} {l : List α} {bs : List β} :
    l.mapM f = .ok bs ↔ List.Forall₂ (fun a b => f a = .ok b) l bs := by
  induction l generalizing bs with
  | nil =>
    rw [List.forall₂_nil_left_iff]
    exact ⟨fun h => (Except.ok.inj h).symm, fun h => h ▸ rfl⟩
  | cons a l ih =>
    rw [List.mapM_cons, bind_eq_ok_iff, List.forall₂_cons_left_iff]
    refine exists_congr fun b => ?_
    rw [bind_eq_ok_iff]
    constructor
    · rintro ⟨first, bs', rest, same⟩
      exact ⟨bs', first, ih.1 rest, (Except.ok.inj same).symm⟩
    · rintro ⟨bs', first, rest, rfl⟩
      exact ⟨first, bs', ih.2 rest, rfl⟩

namespace Stateful

variable {σ ε α β : Type}

def exec (x : Stateful σ ε α) (s : σ) : Except ε α × σ := x.run.run s

/-- From `s`, `x` comes to an answer and a state in `Q` or to a fault and a state in `E`. -/
def Ends (x : Stateful σ ε α) (s : σ) (Q : α → σ → Prop) (E : ε → σ → Prop) : Prop :=
  match exec x s with
  | (.ok a, s') => Q a s'
  | (.error e, s') => E e s'

/-- From `s`, `x` comes to the answer `a` in the state `s'`. -/
def Yields (x : Stateful σ ε α) (s : σ) (a : α) (s' : σ) : Prop :=
  exec x s = (.ok a, s')

def Fails (x : Stateful σ ε α) (s : σ) (e : ε) (s' : σ) : Prop :=
  exec x s = (.error e, s')

theorem exec_bind (x : Stateful σ ε α) (f : α → Stateful σ ε β) (s : σ) :
    exec (x >>= f) s =
      match exec x s with
      | (.ok a, s') => exec (f a) s'
      | (.error e, s') => (.error e, s') := by
  unfold exec
  simp only [ExceptT.run_bind, StateT.run_bind]
  obtain ⟨r, t⟩ := x.run.run s
  cases r <;> rfl

section Ends

variable {x : Stateful σ ε α} {f : α → Stateful σ ε β} {s s' : σ}
  {Q Q' : α → σ → Prop} {E E' : ε → σ → Prop}

theorem ends_iff :
    Ends x s Q E ↔ (∀ a s', Yields x s a s' → Q a s') ∧ (∀ e s', Fails x s e s' → E e s') := by
  unfold Ends Yields Fails
  obtain ⟨r, t⟩ := exec x s
  cases r with
  | ok a => simp
  | error e => simp

theorem Ends.answer {a : α} (h : Ends x s Q E) (hx : Yields x s a s') : Q a s' :=
  (ends_iff.1 h).1 a s' hx

theorem Ends.fault {e : ε} (h : Ends x s Q E) (hx : Fails x s e s') : E e s' :=
  (ends_iff.1 h).2 e s' hx

theorem Ends.exists_fails (h : Ends x s (fun _ _ => False) E) : ∃ e s', Fails x s e s' ∧ E e s' := by
  unfold Ends at h
  rcases hx : exec x s with ⟨r, t⟩
  rw [hx] at h
  cases r with
  | ok a => exact False.elim h
  | error e => exact ⟨e, t, hx, h⟩

theorem Ends.exists_yields (h : Ends x s Q fun _ _ => False) : ∃ a s', Yields x s a s' ∧ Q a s' := by
  unfold Ends at h
  rcases hx : exec x s with ⟨r, t⟩
  rw [hx] at h
  cases r with
  | ok a => exact ⟨a, t, hx, h⟩
  | error e => exact False.elim h

theorem Ends.left {I : σ → Prop} (h : Ends x s (fun _ => I) (fun _ => I)) : I (exec x s).2 := by
  unfold Ends at h
  rcases hx : exec x s with ⟨r, t⟩
  rw [hx] at h
  cases r <;> exact h

theorem Ends.mono (h : Ends x s Q E) (hQ : ∀ a s', Q a s' → Q' a s')
    (hE : ∀ e s', E e s' → E' e s') : Ends x s Q' E' := by
  rw [ends_iff] at h ⊢
  exact ⟨fun a s' hx => hQ a s' (h.1 a s' hx), fun e s' hx => hE e s' (h.2 e s' hx)⟩

@[simp] theorem ends_pure {a : α} : Ends (pure a : Stateful σ ε α) s Q E ↔ Q a s := Iff.rfl

@[simp] theorem ends_throw {e : ε} : Ends (throw e : Stateful σ ε α) s Q E ↔ E e s := Iff.rfl

theorem ends_bind {Q : β → σ → Prop} :
    Ends (x >>= f) s Q E ↔ Ends x s (fun a s' => Ends (f a) s' Q E) E := by
  unfold Ends
  rw [exec_bind]
  obtain ⟨r, t⟩ := exec x s
  cases r <;> rfl

theorem ends_map {g : α → β} {Q : β → σ → Prop} :
    Ends (g <$> x) s Q E ↔ Ends x s (fun a => Q (g a)) E := by
  rw [map_eq_pure_bind, ends_bind]
  rfl

@[simp] theorem ends_get {Q : σ → σ → Prop} :
    Ends (get : Stateful σ ε σ) s Q E ↔ Q s s := Iff.rfl

@[simp] theorem ends_modify {g : σ → σ} {Q : Unit → σ → Prop} :
    Ends (modify g : Stateful σ ε Unit) s Q E ↔ Q () (g s) := Iff.rfl

theorem ends_ofExcept {r : Except ε α} :
    Ends (ofExcept r : Stateful σ ε α) s Q E ↔ Settles r (Q · s) (E · s) := by
  cases r <;> rfl

theorem Ends.foldlM {g : β → α → Stateful σ ε β} {I : β → σ → Prop} :
    ∀ (l : List α) (b : β) (s : σ), I b s →
      (∀ a ∈ l, ∀ b s, I b s → Ends (g b a) s I E) → Ends (l.foldlM g b) s I E
  | [], b, s, h, _ => h
  | a :: l, b, s, h, step => by
    rw [List.foldlM_cons, ends_bind]
    exact (step a (by simp) b s h).mono
      (fun b s hb => Ends.foldlM l b s hb fun a ha => step a (by simp [ha])) fun _ _ => id

theorem Ends.forM {g : α → Stateful σ ε Unit} {I : σ → Prop} :
    ∀ (l : List α) (s : σ), I s → (∀ a ∈ l, ∀ s, I s → Ends (g a) s (fun _ => I) E) →
      Ends (l.forM g) s (fun _ => I) E
  | [], s, h, _ => h
  | a :: l, s, h, step => by
    change Ends (g a >>= fun _ => l.forM g) s _ _
    rw [ends_bind]
    exact (step a (by simp) s h).mono
      (fun _ s hs => Ends.forM l s hs fun a ha => step a (by simp [ha])) fun _ _ => id

theorem Ends.forM_all {g : α → Stateful σ ε Unit} {I : σ → Prop} {R : σ → σ → Prop}
    {P : α → σ → Prop} (refl : ∀ s, R s s) (trans : ∀ s t u, R s t → R t u → R s u)
    (stable : ∀ a s t, R s t → P a s → P a t) :
    ∀ (l : List α) (s : σ), I s →
      (∀ a s, I s → Ends (g a) s (fun _ t => I t ∧ R s t ∧ P a t) fun _ => I) →
      Ends (l.forM g) s (fun _ t => I t ∧ R s t ∧ ∀ a ∈ l, P a t) fun _ => I
  | [], s, h, _ => ⟨h, refl s, fun _ ha => absurd ha List.not_mem_nil⟩
  | a :: l, s, h, step => by
    change Ends (g a >>= fun _ => l.forM g) s _ _
    rw [ends_bind]
    refine (step a s h).mono (fun _ t ht => ?_) fun _ _ => id
    refine (Ends.forM_all refl trans stable l t ht.1 step).mono (fun _ u hu => ?_) fun _ _ => id
    exact ⟨hu.1, trans s t u ht.2.1 hu.2.1, List.forall_mem_cons.2 ⟨stable a t u hu.2.1 ht.2.2, hu.2.2⟩⟩

theorem result_eq_ok_iff {x : Stateful σ ε Unit} : result x s = .ok s' ↔ Yields x s () s' := by
  unfold result Yields exec
  generalize x.run.run s = p
  obtain ⟨r, t⟩ := p
  cases r <;> simp [Except.map]

theorem settles_result {x : Stateful σ ε Unit} {Q : σ → Prop} {E : ε → Prop}
    (h : Ends x s (fun _ => Q) fun e _ => E e) : Settles (result x s) Q E := by
  unfold result
  unfold Ends exec at h
  generalize x.run.run s = p at h ⊢
  obtain ⟨r, t⟩ := p
  cases r <;> exact h

/-- `I` holds after `x`, whatever comes of it, if it held before. -/
def Keeps (I : σ → Prop) (x : Stateful σ ε α) : Prop := ∀ s, I s → Ends x s (fun _ => I) fun _ => I

theorem Keeps.pure {I : σ → Prop} (a : α) : Keeps I (pure a : Stateful σ ε α) := fun _ => id

theorem Keeps.throw {I : σ → Prop} (e : ε) : Keeps I (throw e : Stateful σ ε α) := fun _ => id

theorem Keeps.throw_bind {I : σ → Prop} {e : ε} :
    Keeps I (MonadExcept.throw e >>= f) := fun _ => id

theorem Keeps.ofExcept {I : σ → Prop} (r : Except ε α) : Keeps I (ofExcept r : Stateful σ ε α) := by
  intro s hs
  rw [ends_ofExcept]
  exact Settles.trivial.mono (fun _ _ => hs) fun _ _ => hs

theorem Keeps.bind_ofExcept {I : σ → Prop} {r : Except ε α} (hf : ∀ a, r = .ok a → Keeps I (f a)) :
    Keeps I (MonadExcept.ofExcept r >>= f) := by
  intro s hs
  rw [ends_bind, ends_ofExcept]
  cases r with
  | ok a => exact hf a rfl s hs
  | error e => exact hs

theorem Keeps.modify {I : σ → Prop} {g : σ → σ} (h : ∀ s, I s → I (g s)) :
    Keeps I (modify g : Stateful σ ε Unit) := h

theorem Keeps.bind {I : σ → Prop} (hx : Keeps I x) (hf : ∀ a, Keeps I (f a)) : Keeps I (x >>= f) := by
  intro s hs
  rw [ends_bind]
  exact (hx s hs).mono (fun a t => hf a t) fun _ _ => id

theorem Keeps.map {I : σ → Prop} (g : α → β) (hx : Keeps I x) : Keeps I (g <$> x) := by
  intro s hs
  rw [ends_map]
  exact hx s hs

theorem Keeps.bind_get {I : σ → Prop} {f : σ → Stateful σ ε β} (hf : ∀ s, Keeps I (f s)) :
    Keeps I (get >>= f) := by
  intro s hs
  rw [ends_bind]
  exact hf s s hs

theorem Keeps.foldlM {I : σ → Prop} {g : β → α → Stateful σ ε β} {l : List α} {b : β}
    (h : ∀ a ∈ l, ∀ b, Keeps I (g b a)) : Keeps I (l.foldlM g b) := fun s hs =>
  Ends.foldlM (I := fun _ => I) l b s hs fun a ha b => h a ha b

theorem Keeps.forM {I : σ → Prop} {l : List β} {g : β → Stateful σ ε Unit}
    (h : ∀ b ∈ l, Keeps I (g b)) : Keeps I (l.forM g) := fun s hs => Ends.forM l s hs h

end Ends

section Yields

variable {x : Stateful σ ε α} {f : α → Stateful σ ε β} {s s' : σ} {a : α}

theorem yields_iff_ends : Yields x s a s' ↔ Ends x s (fun b t => b = a ∧ t = s') (fun _ _ => False) := by
  unfold Yields Ends
  obtain ⟨r, t⟩ := exec x s
  cases r <;> simp

@[simp] theorem yields_pure {b : α} : Yields (pure b : Stateful σ ε α) s a s' ↔ b = a ∧ s = s' := by
  simp [yields_iff_ends]

@[simp] theorem not_yields_throw {e : ε} : ¬ Yields (throw e : Stateful σ ε α) s a s' := by
  simp [yields_iff_ends]

@[simp] theorem yields_get {t : σ} : Yields (get : Stateful σ ε σ) s t s' ↔ s = t ∧ s = s' := by
  simp [yields_iff_ends]

@[simp] theorem yields_modify {g : σ → σ} {u : Unit} :
    Yields (modify g : Stateful σ ε Unit) s u s' ↔ g s = s' := by
  simp [yields_iff_ends]

@[simp] theorem yields_ofExcept {r : Except ε α} :
    Yields (ofExcept r : Stateful σ ε α) s a s' ↔ r = .ok a ∧ s = s' := by
  rw [yields_iff_ends, ends_ofExcept]
  cases r <;> simp [Settles]

theorem yields_bind {b : β} :
    Yields (x >>= f) s b s' ↔ ∃ a t, Yields x s a t ∧ Yields (f a) t b s' := by
  unfold Yields
  rw [exec_bind]
  obtain ⟨r, t⟩ := exec x s
  cases r with
  | ok a => simp [and_assoc]
  | error e => simp

theorem yields_ofExcept_bind {r : Except ε α} {b : β} :
    Yields (ofExcept r >>= f) s b s' ↔ ∃ a, r = .ok a ∧ Yields (f a) s b s' := by
  rw [yields_bind]
  simp only [yields_ofExcept]
  constructor
  · rintro ⟨a, _, ⟨h, rfl⟩, hf⟩
    exact ⟨a, h, hf⟩
  · rintro ⟨a, h, hf⟩
    exact ⟨a, s, ⟨h, rfl⟩, hf⟩

theorem not_yields_throw_bind {e : ε} {b : β} :
    ¬ Yields (MonadExcept.throw e >>= f : Stateful σ ε β) s b s' := by
  rw [yields_bind]
  rintro ⟨_, _, h, -⟩
  exact not_yields_throw h

theorem yields_map {g : α → β} {b : β} :
    Yields (g <$> x) s b s' ↔ ∃ a, Yields x s a s' ∧ g a = b := by
  rw [map_eq_pure_bind, yields_bind]
  simp only [yields_pure]
  constructor
  · rintro ⟨a, t, h, rfl, rfl⟩
    exact ⟨a, h, rfl⟩
  · rintro ⟨a, h, rfl⟩
    exact ⟨a, s', h, rfl, rfl⟩

end Yields

section Fails

variable {x : Stateful σ ε α} {f : α → Stateful σ ε β} {s s' : σ} {e : ε}

theorem fails_iff_ends : Fails x s e s' ↔ Ends x s (fun _ _ => False) fun e' t => e' = e ∧ t = s' := by
  unfold Fails Ends
  obtain ⟨r, t⟩ := exec x s
  cases r <;> simp

@[simp] theorem not_fails_pure {a : α} : ¬ Fails (pure a : Stateful σ ε α) s e s' := by
  simp [fails_iff_ends]

@[simp] theorem not_fails_modify {g : σ → σ} : ¬ Fails (modify g : Stateful σ ε Unit) s e s' := by
  simp [fails_iff_ends]

@[simp] theorem fails_throw {e' : ε} : Fails (throw e' : Stateful σ ε α) s e s' ↔ e' = e ∧ s = s' := by
  simp [fails_iff_ends]

theorem fails_bind :
    Fails (x >>= f) s e s' ↔ Fails x s e s' ∨ ∃ a t, Yields x s a t ∧ Fails (f a) t e s' := by
  unfold Fails Yields
  rw [exec_bind]
  obtain ⟨r, t⟩ := exec x s
  cases r with
  | ok a => simp [and_assoc]
  | error e => simp

theorem fails_map {g : α → β} : Fails (g <$> x) s e s' ↔ Fails x s e s' := by
  rw [map_eq_pure_bind, fails_bind]
  simp

theorem Yields.not_fails {a : α} {t : σ} (h : Yields x s a t) : ¬ Fails x s e s' := by
  intro h'
  cases h.symm.trans h'

theorem Yields.unique {a b : α} {t u : σ} (h : Yields x s a t) (h' : Yields x s b u) : a = b ∧ t = u := by
  cases h.symm.trans h'
  exact ⟨rfl, rfl⟩

theorem fails_foldlM_iff {g : β → α → Stateful σ ε β} {l : List α} {b : β} :
    Fails (l.foldlM g b) s e s' ↔ ∃ before a after b' t, l = before ++ a :: after ∧
      Yields (before.foldlM g b) s b' t ∧ Fails (g b' a) t e s' := by
  constructor
  · intro h
    induction l generalizing b s with
    | nil => exact absurd h not_fails_pure
    | cons a l ih =>
      rw [List.foldlM_cons, fails_bind] at h
      rcases h with h | ⟨mid, u, first, h⟩
      · exact ⟨[], a, l, b, s, rfl, yields_pure.2 ⟨rfl, rfl⟩, h⟩
      · obtain ⟨before, a', after, b', t, rfl, later, fails⟩ := ih h
        refine ⟨a :: before, a', after, b', t, rfl, ?_, fails⟩
        rw [List.foldlM_cons]
        exact yields_bind.2 ⟨mid, u, first, later⟩
  · rintro ⟨before, a, after, b', t, rfl, first, fails⟩
    rw [List.foldlM_append, fails_bind]
    refine .inr ⟨b', t, first, ?_⟩
    rw [List.foldlM_cons]
    exact fails_bind.2 (.inl fails)

theorem exists_fails_of_isNone (h : (exec x s).1.toOption.isNone = true) : ∃ e t, Fails x s e t := by
  unfold Fails
  rcases hx : exec x s with ⟨r, t⟩
  rw [hx] at h
  cases r with
  | ok a => cases h
  | error e => exact ⟨e, t, rfl⟩

theorem exists_yields_of_isSome (h : (exec x s).1.toOption.isSome = true) : ∃ a t, Yields x s a t := by
  unfold Yields
  rcases hx : exec x s with ⟨r, t⟩
  rw [hx] at h
  cases r with
  | ok a => exact ⟨a, t, rfl⟩
  | error e => cases h

/-- Whether a computation gives something that passes a test. -/
def gives (x : Stateful σ ε α) (s : σ) (p : α → σ → Bool) : Bool :=
  match exec x s with
  | (.ok a, t) => p a t
  | (.error _, _) => false

theorem gives_iff {p : α → σ → Bool} : gives x s p = true ↔ ∃ a t, Yields x s a t ∧ p a t = true := by
  unfold gives Yields
  obtain ⟨r, t⟩ := exec x s
  cases r <;> simp [and_assoc]

end Fails

end Stateful

section Through

open Stateful

/-- `R` leads from one state to another through the items of a list. -/
inductive Through {α σ : Type} (R : α → σ → σ → Prop) : List α → σ → σ → Prop
  | nil (s : σ) : Through R [] s s
  | cons {a : α} {l : List α} {s t u : σ} : R a s t → Through R l t u → Through R (a :: l) s u

namespace Through

variable {α β σ τ : Type} {R : α → σ → σ → Prop} {l l' : List α} {s t u : σ}

theorem append (h : Through R l s t) (h' : Through R l' t u) : Through R (l ++ l') s u := by
  induction h with
  | nil => exact h'
  | cons ha _ ih => exact .cons ha (ih h')

theorem append_iff : Through R (l ++ l') s u ↔ ∃ t, Through R l s t ∧ Through R l' t u := by
  refine ⟨fun h => ?_, fun ⟨t, h, h'⟩ => h.append h'⟩
  induction l generalizing s with
  | nil => exact ⟨s, .nil s, h⟩
  | cons a l ih =>
    cases h with
    | cons ha h =>
      obtain ⟨t, hl, hl'⟩ := ih h
      exact ⟨t, .cons ha hl, hl'⟩

theorem singleton {a : α} (h : R a s t) : Through R [a] s t := .cons h (.nil t)

theorem map {R' : α → τ → τ → Prop} (v : σ → τ) (h : Through R l s t)
    (step : ∀ a s t, R a s t → R' a (v s) (v t)) : Through R' l (v s) (v t) := by
  induction h with
  | nil => exact .nil _
  | cons ha _ ih => exact .cons (step _ _ _ ha) ih

theorem lift {I : σ → σ → Prop} (refl : ∀ s, I s s) (trans : ∀ s t u, I s t → I t u → I s u)
    (step : ∀ a ∈ l, ∀ s t, R a s t → I s t) (h : Through R l s t) : I s t := by
  induction h with
  | nil => exact refl _
  | cons ha _ ih =>
    exact trans _ _ _ (step _ (by simp) _ _ ha) (ih fun a hm => step a (by simp [hm]))

theorem of_foldlM {ε : Type} {g : β → α → Stateful σ ε β} {b b' : β}
    (h : Yields (l.foldlM g b) s b' t) :
    Through (fun a x y => Yields (g x.1 a) x.2 y.1 y.2) l (b, s) (b', t) := by
  induction l generalizing b s with
  | nil =>
    obtain ⟨rfl, rfl⟩ := yields_pure.1 h
    exact .nil _
  | cons a l ih =>
    rw [List.foldlM_cons, yields_bind] at h
    obtain ⟨b₁, s₁, ha, h⟩ := h
    exact .cons ha (ih h)

theorem nil_iff : Through R [] s t ↔ s = t := by
  constructor
  · rintro ⟨⟩
    rfl
  · rintro rfl
    exact .nil s

theorem cons_iff {a : α} : Through R (a :: l) s u ↔ ∃ t, R a s t ∧ Through R l t u := by
  constructor
  · rintro (_ | ⟨ha, h⟩)
    exact ⟨_, ha, h⟩
  · rintro ⟨t, ha, h⟩
    exact .cons ha h

theorem map_iff {f : β → α} {l : List β} : Through R (l.map f) s t ↔ Through (fun b => R (f b)) l s t := by
  induction l generalizing s with
  | nil => rw [List.map_nil, nil_iff, nil_iff]
  | cons b l ih => simp only [List.map_cons, cons_iff, ih]

theorem of_mem {a : α} (h : Through R l s u) (ha : a ∈ l) :
    ∃ before after t v, l = before ++ a :: after ∧ Through R before s t ∧ R a t v ∧ Through R after v u := by
  obtain ⟨before, after, rfl⟩ := List.append_of_mem ha
  obtain ⟨t, first, rest⟩ := append_iff.1 h
  obtain ⟨v, step, rest⟩ := cons_iff.1 rest
  exact ⟨before, after, t, v, rfl, first, step, rest⟩

theorem exists_step {P : σ → Prop} (h : Through R l s u) (hs : ¬ P s) (hu : P u) :
    ∃ before a after t v, l = before ++ a :: after ∧ Through R before s t ∧ R a t v ∧ Through R after v u ∧
      ¬ P t ∧ P v := by
  induction h with
  | nil => exact absurd hu hs
  | @cons a l s t u step rest ih =>
    by_cases ht : P t
    · exact ⟨[], a, l, s, t, rfl, .nil s, step, rest, hs, ht⟩
    · obtain ⟨before, b, after, v, w, rfl, first, change⟩ := ih ht hu
      exact ⟨a :: before, b, after, v, w, rfl, .cons step first, change⟩

theorem of_still (h : ∀ a ∈ l, R a s s) : Through R l s s := by
  induction l with
  | nil => exact .nil s
  | cons a l ih =>
    rw [List.forall_mem_cons] at h
    exact .cons h.1 (ih h.2)

theorem yields_forM_iff {ε : Type} {f : α → Stateful σ ε Unit} :
    Yields (l.forM f) s () t ↔ Through (fun a s t => Yields (f a) s () t) l s t := by
  induction l generalizing s with
  | nil => exact yields_pure.trans ((and_iff_right rfl).trans nil_iff.symm)
  | cons a l ih =>
    change Yields (f a >>= fun _ => l.forM f) s () t ↔ _
    rw [yields_bind, cons_iff]
    simp only [ih]
    exact ⟨fun ⟨_, t, h⟩ => ⟨t, h⟩, fun ⟨t, h⟩ => ⟨(), t, h⟩⟩

theorem fails_forM_iff {ε : Type} {f : α → Stateful σ ε Unit} {e : ε} :
    Fails (l.forM f) s e u ↔ ∃ before a after t, l = before ++ a :: after ∧
      Through (fun a s t => Yields (f a) s () t) before s t ∧ Fails (f a) t e u := by
  induction l generalizing s with
  | nil =>
    refine ⟨fun h => absurd h not_fails_pure, ?_⟩
    rintro ⟨before, a, after, t, split, -⟩
    cases before <;> cases split
  | cons a l ih =>
    change Fails (f a >>= fun _ => l.forM f) s e u ↔ _
    rw [fails_bind]
    constructor
    · rintro (h | ⟨⟨⟩, t, first, h⟩)
      · exact ⟨[], a, l, s, rfl, .nil s, h⟩
      · obtain ⟨before, b, after, v, rfl, rest, fails⟩ := ih.1 h
        exact ⟨a :: before, b, after, v, rfl, .cons first rest, fails⟩
    · rintro ⟨before, b, after, v, split, way, fails⟩
      cases way with
      | nil =>
        cases split
        exact .inl fails
      | cons first rest =>
        cases split
        exact .inr ⟨(), _, first, ih.2 ⟨_, b, after, v, rfl, rest, fails⟩⟩

end Through

end Through

end SchemaGraph

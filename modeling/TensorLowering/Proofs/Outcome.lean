import Mathlib.Data.List.Forall2

/-!
# When programs that can fail succeed

A program that is put together from smaller ones, in sequence or along a list, succeeds exactly if
its parts do. The lemmas are tagged for `simp`, which so takes a successful run apart.
`FailsOnly` says which errors a program can end with.
-/

namespace TensorLowering

variable {ε ε' α β γ : Type}

@[simp] theorem exists_unit {p : Unit → Prop} : (∃ u, p u) ↔ p () :=
  ⟨fun ⟨_, h⟩ => h, fun h => ⟨(), h⟩⟩

@[simp] theorem pure_eq_ok (a : α) : (pure a : Except ε α) = .ok a := rfl

@[simp] theorem throw_eq_error (e : ε) : (throw e : Except ε α) = .error e := rfl

@[simp] theorem ok_bind (a : α) (f : α → Except ε β) : (Except.ok a >>= f) = f a := rfl

@[simp] theorem error_bind (e : ε) (f : α → Except ε β) : (Except.error e >>= f) = .error e := rfl

@[simp] theorem bind_eq_ok {x : Except ε α} {f : α → Except ε β} {b : β} :
    (x >>= f) = .ok b ↔ ∃ a, x = .ok a ∧ f a = .ok b := by
  cases x <;> simp

@[simp] theorem bind_eq_error {x : Except ε α} {f : α → Except ε β} {e : ε} :
    (x >>= f) = .error e ↔ x = .error e ∨ ∃ a, x = .ok a ∧ f a = .error e := by
  cases x <;> simp

@[simp] theorem map_eq_ok {x : Except ε α} {f : α → β} {b : β} :
    (f <$> x) = .ok b ↔ ∃ a, x = .ok a ∧ f a = b := by
  cases x <;> simp [Functor.map, Except.map]

@[simp] theorem discard_eq_ok {x : Except ε α} {u : Unit} :
    discard x = .ok u ↔ ∃ a, x = .ok a := by
  cases x <;> simp [discard, Functor.discard, Functor.mapConst, Except.map]

@[simp] theorem mapError_eq_ok {x : Except ε α} {f : ε → ε'} {a : α} :
    x.mapError f = .ok a ↔ x = .ok a := by
  cases x <;> simp [Except.mapError]

theorem toOption_eq_some {x : Except ε α} {a : α} : x.toOption = some a ↔ x = .ok a := by
  cases x <;> simp [Except.toOption]

theorem toOption_bind (x : Except ε α) (f : α → Except ε β) :
    (x >>= f).toOption = x.toOption.bind fun a => (f a).toOption := by
  cases x <;> rfl

theorem toOption_map (f : α → β) (x : Except ε α) : (f <$> x).toOption = x.toOption.map f := by
  cases x <;> rfl

/-- What is known of the result of a run holds of each result of it. -/
theorem of_exists_eq_ok {p : α → Prop} {x : Except ε α} {a : α} (h : ∃ b, x = .ok b ∧ p b)
    (ha : x = .ok a) : p a := by
  obtain ⟨b, hb, hp⟩ := h
  rwa [Except.ok.inj (ha.symm.trans hb)]

/-- A traversal succeeds if it does so element by element. -/
theorem mapM_eq_ok {f : α → Except ε β} {xs : List α} {ys : List β} :
    xs.mapM f = .ok ys ↔ List.Forall₂ (fun x y => f x = .ok y) xs ys := by
  induction xs generalizing ys with
  | nil => simp [eq_comm]
  | cons x xs ih =>
    rw [List.mapM_cons]
    simp only [bind_eq_ok, ih, pure_eq_ok, Except.ok.injEq, List.forall₂_cons_left_iff]
    constructor
    · rintro ⟨y, hy, ys, hys, rfl⟩; exact ⟨y, ys, hy, hys, rfl⟩
    · rintro ⟨y, ys, hy, hys, rfl⟩; exact ⟨y, hy, ys, hys, rfl⟩

/-- A traversal by a program that succeeds at every element. -/
theorem mapM_eq_ok_map {f : α → Except ε β} {g : α → β} {xs : List α}
    (h : ∀ x ∈ xs, f x = .ok (g x)) : xs.mapM f = .ok (xs.map g) := by
  rw [mapM_eq_ok, List.forall₂_map_right_iff]
  exact List.forall₂_same.mpr h

/-- A traversal that fails does so at one of the elements. -/
theorem exists_of_mapM_eq_error {f : α → Except ε β} {xs : List α} {e : ε}
    (h : xs.mapM f = .error e) : ∃ x ∈ xs, f x = .error e := by
  induction xs with
  | nil => simp at h
  | cons x xs ih =>
    rw [List.mapM_cons] at h
    simp only [bind_eq_error, pure_eq_ok, reduceCtorEq, and_false, exists_const, or_false] at h
    rcases h with h | ⟨y, -, h⟩
    · exact ⟨x, List.mem_cons_self, h⟩
    · obtain ⟨z, hz, hf⟩ := ih h
      exact ⟨z, List.mem_cons_of_mem _ hz, hf⟩

/-- A traversal depends only on what the program does at each place. -/
theorem mapM_congr₂ {f : α → Except ε β} {f' : γ → Except ε β} {xs : List α} {ys : List γ}
    (h : List.Forall₂ (fun x y => f x = f' y) xs ys) : xs.mapM f = ys.mapM f' := by
  induction h with
  | nil => rfl
  | cons hx _ ih => rw [List.mapM_cons, List.mapM_cons, hx, ih]

theorem mapM_congr {f f' : α → Except ε β} {xs : List α} (h : ∀ x ∈ xs, f x = f' x) :
    xs.mapM f = xs.mapM f' :=
  mapM_congr₂ (List.forall₂_same.mpr h)

theorem foldlM_congr {f f' : β → α → Except ε β} {xs : List α} {b : β}
    (h : ∀ x ∈ xs, ∀ b, f b x = f' b x) : xs.foldlM f b = xs.foldlM f' b := by
  induction xs generalizing b with
  | nil => rfl
  | cons x xs ih =>
    obtain ⟨hx, hxs⟩ := List.forall_mem_cons.mp h
    simp only [List.foldlM_cons, hx, ih hxs]

/-- A traversal of related lists succeeds with related results if it does so at each place. -/
theorem mapM_mono {α' β' : Type} {R : α → α' → Prop} {S : β → β' → Prop} {f : α → Except ε β}
    {f' : α' → Except ε β'} {xs : List α} {xs' : List α'} {ys : List β} (h : List.Forall₂ R xs xs')
    (hf : ∀ x x' y, R x x' → f x = .ok y → ∃ y', f' x' = .ok y' ∧ S y y')
    (hok : xs.mapM f = .ok ys) : ∃ ys', xs'.mapM f' = .ok ys' ∧ List.Forall₂ S ys ys' := by
  rw [mapM_eq_ok] at hok
  simp only [mapM_eq_ok]
  induction h generalizing ys with
  | nil =>
    cases hok
    exact ⟨[], .nil, .nil⟩
  | cons hx _ ih =>
    cases hok with
    | cons hy hys =>
      obtain ⟨y', hy', hs⟩ := hf _ _ _ hx hy
      obtain ⟨ys', hys', hss⟩ := ih hys
      exact ⟨y' :: ys', .cons hy' hys', .cons hs hss⟩

/-- The same for a loop along related lists. -/
theorem foldlM_mono {α' β' : Type} {R : α → α' → Prop} {S : β → β' → Prop}
    {f : β → α → Except ε β} {f' : β' → α' → Except ε β'} {xs : List α} {xs' : List α'}
    (h : List.Forall₂ R xs xs')
    (hf : ∀ b b' x x' c, S b b' → R x x' → f b x = .ok c → ∃ c', f' b' x' = .ok c' ∧ S c c')
    {b c : β} {b' : β'} (hb : S b b') (hok : xs.foldlM f b = .ok c) :
    ∃ c', xs'.foldlM f' b' = .ok c' ∧ S c c' := by
  induction h generalizing b b' with
  | nil =>
    obtain rfl := Except.ok.inj hok
    exact ⟨b', rfl, hb⟩
  | cons hx _ ih =>
    rw [List.foldlM_cons] at hok
    obtain ⟨d, hd, hok⟩ := bind_eq_ok.mp hok
    obtain ⟨d', hd', hs⟩ := hf _ _ _ _ _ hb hx hd
    obtain ⟨c', hc', hc⟩ := ih hs hok
    exact ⟨c', by rw [List.foldlM_cons, hd', ok_bind, hc'], hc⟩

/-- What holds at the start and is kept by every step holds at the end of a loop. -/
theorem of_foldlM {P : β → Prop} {f : β → α → Except ε β} {xs : List α} {b c : β}
    (hf : ∀ b x c, P b → x ∈ xs → f b x = .ok c → P c) (hb : P b) (h : xs.foldlM f b = .ok c) :
    P c := by
  induction xs generalizing b with
  | nil =>
    obtain rfl := Except.ok.inj h
    exact hb
  | cons x xs ih =>
    obtain ⟨d, hd, h⟩ := bind_eq_ok.mp h
    exact ih (fun b y c hP hy => hf b y c hP (.tail x hy)) (hf b x d hb (.head xs) hd) h

/-- A loop succeeds if every step does so wherever something holds that the steps keep. -/
theorem exists_foldlM_eq_ok {P : β → Prop} {f : β → α → Except ε β} {xs : List α} {b : β}
    (hf : ∀ b x, P b → x ∈ xs → ∃ c, f b x = .ok c ∧ P c) (hb : P b) :
    ∃ c, xs.foldlM f b = .ok c ∧ P c := by
  induction xs generalizing b with
  | nil => exact ⟨b, rfl, hb⟩
  | cons x xs ih =>
    obtain ⟨c, hc, hP⟩ := hf b x hb (.head xs)
    obtain ⟨d, hd, hP⟩ := ih (fun b y hP hy => hf b y hP (.tail x hy)) hP
    exact ⟨d, by rw [List.foldlM_cons, hc, ok_bind, hd], hP⟩

/-- The last step of a run along a list. -/
theorem foldlM_concat_eq_ok {f : β → α → Except ε β} {init b : β} {xs : List α} {x : α} :
    (xs ++ [x]).foldlM f init = .ok b ↔ ∃ c, xs.foldlM f init = .ok c ∧ f c x = .ok b := by
  rw [List.foldlM_append, bind_eq_ok]
  simp only [List.foldlM_cons, List.foldlM_nil, bind_pure]

/-- A run along a list fails at the last step or before. -/
theorem foldlM_concat_eq_error {f : β → α → Except ε β} {init : β} {xs : List α} {x : α} {e : ε} :
    (xs ++ [x]).foldlM f init = .error e ↔
      xs.foldlM f init = .error e ∨ ∃ c, xs.foldlM f init = .ok c ∧ f c x = .error e := by
  rw [List.foldlM_append, bind_eq_error]
  simp only [List.foldlM_cons, List.foldlM_nil, bind_pure]

/-- Up to its error, a run along a list does not depend on the order of the list if any two steps can
change places. -/
theorem toOption_foldlM_perm {P : α → Prop} {f : β → α → Except ε β}
    (hf : ∀ b x y, P x → P y → (f b x >>= (f · y)).toOption = (f b y >>= (f · x)).toOption)
    {xs ys : List α} (h : xs.Perm ys) (hP : ∀ x ∈ xs, P x) (b : β) :
    (xs.foldlM f b).toOption = (ys.foldlM f b).toOption := by
  induction h generalizing b with
  | nil => rfl
  | cons x _ ih =>
    rw [List.foldlM_cons, List.foldlM_cons, toOption_bind, toOption_bind]
    exact congrArg _ (funext fun c => ih (fun y hy => hP y (.tail x hy)) c)
  | swap x y xs =>
    have hswap := hf b y x (hP y (.head _)) (hP x (.tail y (.head _)))
    simp only [List.foldlM_cons, ← bind_assoc]
    rw [toOption_bind, hswap, ← toOption_bind]
  | trans h _ ih ih' =>
    exact (ih hP b).trans (ih' (fun x hx => hP x (h.mem_iff.mpr hx)) b)

/-- A check along a list succeeds if it does so at every element. -/
@[simp] theorem forM_eq_ok {f : α → Except ε Unit} {xs : List α} {u : Unit} :
    forM xs f = .ok u ↔ ∀ x ∈ xs, f x = .ok () := by
  induction xs with
  | nil => simp
  | cons x xs ih =>
    rw [List.forM_cons, bind_eq_ok, exists_unit, List.forall_mem_cons, ih]

/-- The elements of a list, if all of them are there. -/
theorem mapM_eq_some {f : α → Option β} {xs : List α} {ys : List β} :
    xs.mapM f = some ys ↔ List.Forall₂ (fun x y => f x = some y) xs ys := by
  induction xs generalizing ys with
  | nil => simp [eq_comm]
  | cons x xs ih =>
    rw [List.mapM_cons]
    simp only [Option.bind_eq_bind, Option.bind_eq_some_iff, ih, Option.pure_def, Option.some.injEq,
      List.forall₂_cons_left_iff]
    constructor
    · rintro ⟨y, hy, ys, hys, rfl⟩; exact ⟨y, ys, hy, hys, rfl⟩
    · rintro ⟨y, ys, hy, hys, rfl⟩; exact ⟨y, hy, ys, hys, rfl⟩

theorem mapM_id_eq_some {xs : List (Option α)} {ys : List α} :
    xs.mapM id = some ys ↔ xs = ys.map some := by
  rw [mapM_eq_some, ← List.forall₂_eq_eq_eq, List.forall₂_map_right_iff]
  rfl

theorem exists_of_forall₂_left {R : α → β → Prop} {xs : List α} {ys : List β}
    (h : List.Forall₂ R xs ys) {x : α} (hx : x ∈ xs) : ∃ y ∈ ys, R x y := by
  induction h with
  | nil => cases hx
  | cons hxy _ ih =>
    rcases List.mem_cons.mp hx with rfl | hx
    · exact ⟨_, List.mem_cons_self, hxy⟩
    · obtain ⟨y, hy, hr⟩ := ih hx
      exact ⟨y, List.mem_cons_of_mem _ hy, hr⟩

theorem exists_of_forall₂_right {R : α → β → Prop} {xs : List α} {ys : List β}
    (h : List.Forall₂ R xs ys) {y : β} (hy : y ∈ ys) : ∃ x ∈ xs, R x y :=
  exists_of_forall₂_left h.flip hy

theorem forall₂_and_right {R : α → β → Prop} {p : β → Prop} {xs : List α} {ys : List β}
    (h : List.Forall₂ R xs ys) (hp : ∀ y ∈ ys, p y) :
    List.Forall₂ (fun x y => R x y ∧ p y) xs ys := by
  induction h with
  | nil => exact .nil
  | cons hxy _ ih =>
    rw [List.forall_mem_cons] at hp
    exact .cons ⟨hxy, hp.1⟩ (ih hp.2)

theorem forall₂_and_left {R : α → β → Prop} {p : α → Prop} {xs : List α} {ys : List β}
    (h : List.Forall₂ R xs ys) (hp : ∀ x ∈ xs, p x) :
    List.Forall₂ (fun x y => R x y ∧ p x) xs ys :=
  (forall₂_and_right h.flip hp).flip

/-- Two lists that are related to a third one are related to each other. -/
theorem forall₂_of_common {R : α → β → Prop} {S : α → γ → Prop} {T : β → γ → Prop} {xs : List α}
    {ys : List β} {zs : List γ} (hr : List.Forall₂ R xs ys) (hs : List.Forall₂ S xs zs)
    (h : ∀ x y z, R x y → S x z → T y z) : List.Forall₂ T ys zs := by
  induction hr generalizing zs with
  | nil => cases hs; exact .nil
  | cons hxy _ ih =>
    cases hs with
    | cons hxz hs => exact .cons (h _ _ _ hxy hxz) (ih hs)

/-- Related lists hold related elements at the same places. -/
theorem getElem?_of_forall₂ {R : α → β → Prop} {xs : List α} {ys : List β}
    (h : List.Forall₂ R xs ys) {i : Nat} {x : α} (hx : xs[i]? = some x) :
    ∃ y, ys[i]? = some y ∧ R x y := by
  induction h generalizing i with
  | nil => simp at hx
  | @cons x' y xs ys hxy _ ih =>
    cases i with
    | zero => obtain rfl := Option.some.inj hx; exact ⟨y, rfl, hxy⟩
    | succ i => exact ih hx

/-- A list has related elements exactly if each of its elements has one. -/
theorem exists_forall₂ {R : α → β → Prop} {xs : List α} :
    (∃ ys, List.Forall₂ R xs ys) ↔ ∀ x ∈ xs, ∃ y, R x y := by
  constructor
  · rintro ⟨ys, h⟩ x hx
    obtain ⟨y, -, hr⟩ := exists_of_forall₂_left h hx
    exact ⟨y, hr⟩
  · intro h
    induction xs with
    | nil => exact ⟨[], .nil⟩
    | cons x xs ih =>
      rw [List.forall_mem_cons] at h
      obtain ⟨y, hy⟩ := h.1
      obtain ⟨ys, hys⟩ := ih h.2
      exact ⟨y :: ys, .cons hy hys⟩

theorem exists_mapM_eq_ok {f : α → Except ε β} {xs : List α} :
    (∃ ys, xs.mapM f = .ok ys) ↔ ∀ x ∈ xs, ∃ y, f x = .ok y := by
  simp only [mapM_eq_ok, exists_forall₂]

/-! ## Errors that can occur -/

/-- Every error that the program can end with has the property. -/
structure FailsOnly (P : ε → Prop) (x : Except ε α) : Prop where
  of_error : ∀ e, x = .error e → P e

variable {P : ε → Prop}

theorem FailsOnly.imp {Q : ε → Prop} {x : Except ε α} (h : FailsOnly P x) (hpq : ∀ e, P e → Q e) :
    FailsOnly Q x := ⟨fun e he => hpq e (h.of_error e he)⟩

@[simp] theorem failsOnly_ok (a : α) : FailsOnly P (.ok a) := ⟨fun _ h => by cases h⟩

@[simp] theorem failsOnly_error {e : ε} : FailsOnly P (.error e : Except ε α) ↔ P e :=
  ⟨fun h => h.of_error e rfl, fun h => ⟨fun e' he => by cases he; exact h⟩⟩

@[simp] theorem failsOnly_bind {x : Except ε α} {f : α → Except ε β} :
    FailsOnly P (x >>= f) ↔ FailsOnly P x ∧ ∀ a, x = .ok a → FailsOnly P (f a) := by
  cases x <;> simp

@[simp] theorem failsOnly_ite {c : Prop} [Decidable c] {x y : Except ε α} :
    FailsOnly P (if c then x else y) ↔ (c → FailsOnly P x) ∧ (¬c → FailsOnly P y) := by
  split <;> simp_all

@[simp] theorem failsOnly_mapM {f : α → Except ε β} {xs : List α}
    (h : ∀ x ∈ xs, FailsOnly P (f x)) : FailsOnly P (xs.mapM f) := ⟨fun e he => by
  obtain ⟨x, hx, hf⟩ := exists_of_mapM_eq_error he
  exact (h x hx).of_error e hf⟩

@[simp] theorem failsOnly_forM {f : α → Except ε Unit} {xs : List α}
    (h : ∀ x ∈ xs, FailsOnly P (f x)) : FailsOnly P (forM xs f) := by
  induction xs with
  | nil => exact failsOnly_ok ()
  | cons x xs ih =>
    rw [List.forall_mem_cons] at h
    exact failsOnly_bind.mpr ⟨h.1, fun _ _ => ih h.2⟩

theorem failsOnly_mapError {x : Except ε' α} {f : ε' → ε} (h : ∀ e, P (f e)) :
    FailsOnly P (x.mapError f) := by
  cases x with
  | ok a => exact failsOnly_ok a
  | error e => exact failsOnly_error.mpr (h e)

/-- A loop fails only as its steps do, wherever something holds that the steps keep. -/
theorem failsOnly_foldlM_of {Q : β → Prop} {f : β → α → Except ε β} {init : β} {xs : List α}
    (h : ∀ b, Q b → ∀ x ∈ xs, FailsOnly P (f b x) ∧ ∀ c, f b x = .ok c → Q c) (hinit : Q init) :
    FailsOnly P (xs.foldlM f init) := by
  induction xs generalizing init with
  | nil => exact failsOnly_ok init
  | cons x xs ih =>
    obtain ⟨hfails, hkeeps⟩ := h init hinit x List.mem_cons_self
    rw [List.foldlM_cons, failsOnly_bind]
    exact ⟨hfails, fun c hc => ih (fun b hb y hy => h b hb y (List.mem_cons_of_mem _ hy))
      (hkeeps c hc)⟩

end TensorLowering

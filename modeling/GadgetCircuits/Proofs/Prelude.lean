import Mathlib
import GadgetCircuits.Slice
import GadgetCircuits.Update

/-!
Facts about lists, about computations that may fail and about runs of steps on a state, shared by the
developments below. What a step does is known from its run; of a step inside a longer run it is enough to
know that it finishes, and what holds then.
-/

namespace GadgetCircuits

open List

variable {α β γ : Type}
variable {xs : List α} {ys : List β} {f : α → Except Error β} {x : Except Error α}
variable {R : α → β → Prop}

lemma ok_bind (a : α) (f : α → Except Error β) : (Except.ok a >>= f) = f a := rfl

lemma bind_eq_ok {b : β} : (x >>= f) = .ok b ↔ ∃ a, x = .ok a ∧ f a = .ok b := by
  cases x with
  | error e =>
    constructor
    · intro h
      cases h
    · rintro ⟨a, ha, -⟩
      cases ha
  | ok a =>
    constructor
    · exact fun h => ⟨a, rfl, h⟩
    · rintro ⟨a', ha, h⟩
      cases ha
      exact h

lemma exists_ok (h : x.toOption.isSome) : ∃ a, x = .ok a := by
  cases x with
  | error e => cases h
  | ok a => exact ⟨a, rfl⟩

lemma map_eq_ok {f : α → β} {b : β} : x.map f = .ok b ↔ ∃ a, x = .ok a ∧ f a = b := by
  cases x <;> simp [Except.map]

lemma mapM_ok {g : α → β} (h : ∀ x ∈ xs, f x = .ok (g x)) : xs.mapM f = .ok (xs.map g) := by
  induction xs with
  | nil => rfl
  | cons x xs ih =>
    rw [mapM_cons, h x mem_cons_self, ih fun y hy => h y (mem_cons_of_mem x hy)]
    rfl

lemma mapM_exists (h : ∀ x ∈ xs, ∃ y, f x = .ok y) :
    ∃ ys, xs.mapM f = .ok ys ∧ ys.length = xs.length := by
  induction xs with
  | nil => exact ⟨[], rfl, rfl⟩
  | cons x xs ih =>
    obtain ⟨⟨y, hy⟩, h⟩ := forall_mem_cons.mp h
    obtain ⟨ys, hys, hlen⟩ := ih h
    refine ⟨y :: ys, ?_, congrArg (· + 1) hlen⟩
    rw [mapM_cons, hy, ok_bind, hys]
    rfl

lemma foldlM_ok {f : β → α → Except Error β} {g : β → α → β} (h : ∀ b, ∀ x ∈ xs, f b x = .ok (g b x))
    (b : β) : xs.foldlM f b = .ok (xs.foldl g b) := by
  induction xs generalizing b with
  | nil => rfl
  | cons x xs ih =>
    rw [foldlM_cons, h b x mem_cons_self, ok_bind,
      ih fun b y hy => h b y (mem_cons_of_mem x hy), foldl_cons]

lemma foldlM_exists {f : β → α → Except Error β} (h : ∀ b, ∀ x ∈ xs, ∃ b', f b x = .ok b') (b : β) :
    ∃ b', xs.foldlM f b = .ok b' := by
  induction xs generalizing b with
  | nil => exact ⟨b, rfl⟩
  | cons x xs ih =>
    obtain ⟨b', hb'⟩ := h b x mem_cons_self
    rw [foldlM_cons, hb', ok_bind]
    exact ih (fun b y hy => h b y (mem_cons_of_mem x hy)) b'

lemma foldlM_invariant {f : β → α → Except Error β} (inv : β → Prop)
    (hstep : ∀ b x b', inv b → f b x = .ok b' → inv b') {b b' : β} (hb : inv b)
    (h : xs.foldlM f b = .ok b') : inv b' := by
  induction xs generalizing b with
  | nil =>
    cases h
    exact hb
  | cons x xs ih =>
    rw [foldlM_cons] at h
    obtain ⟨b₁, hx, hrest⟩ := bind_eq_ok.mp h
    exact ih (hstep b x b₁ hb hx) hrest

lemma mapM_eq_ok : xs.mapM f = .ok ys ↔ Forall₂ (fun x y => f x = .ok y) xs ys := by
  induction xs generalizing ys with
  | nil =>
    rw [mapM_nil, forall₂_nil_left_iff]
    exact ⟨fun h => (Except.ok.inj h).symm, fun h => by rw [h]; rfl⟩
  | cons x xs ih =>
    rw [mapM_cons, bind_eq_ok, forall₂_cons_left_iff]
    refine exists_congr fun y => ?_
    rw [bind_eq_ok]
    constructor
    · rintro ⟨hy, zs, hzs, h⟩
      exact ⟨zs, hy, ih.mp hzs, (Except.ok.inj h).symm⟩
    · rintro ⟨zs, hy, hzs, rfl⟩
      exact ⟨hy, zs, ih.mpr hzs, rfl⟩

lemma of_mem_forall₂ (h : Forall₂ R xs ys) : ∀ y ∈ ys, ∃ x ∈ xs, R x y := by
  induction h with
  | nil => simp
  | cons hxy _ ih =>
    simp_all

lemma of_mem_mapM (h : xs.mapM f = .ok ys) : ∀ y ∈ ys, ∃ x ∈ xs, f x = .ok y :=
  of_mem_forall₂ (mapM_eq_ok.mp h)

lemma mapM_eq_some {f : α → Option β} :
    xs.mapM f = some ys ↔ Forall₂ (fun x y => f x = some y) xs ys := by
  induction xs generalizing ys with
  | nil => simp [eq_comm]
  | cons x xs ih =>
    simp only [mapM_cons, Option.bind_eq_bind, Option.bind_eq_some_iff, forall₂_cons_left_iff, ih,
      Option.pure_def, Option.some.injEq]
    grind

lemma mapM_getElem? (h : xs.mapM f = .ok ys) {i : Nat} {x : α} (hx : xs[i]? = some x) :
    ∃ y, ys[i]? = some y ∧ f x = .ok y := by
  rw [mapM_eq_ok] at h
  induction h generalizing i with
  | nil => simp at hx
  | cons hxy _ ih =>
    grind

lemma mapM_congr_ok {g : α → Except Error β} (h : ∀ x ∈ xs, ∀ y, f x = .ok y ↔ g x = .ok y) :
    xs.mapM f = .ok ys ↔ xs.mapM g = .ok ys := by
  induction xs generalizing ys with
  | nil => rfl
  | cons x xs ih =>
    obtain ⟨hx, hxs⟩ := forall_mem_cons.mp h
    simp only [mapM_cons, bind_eq_ok, hx, ih hxs]

lemma mapM_exceptMap (f : α → Except Error β) (g : β → γ) (xs : List α) :
    (xs.mapM fun x => (f x).map g) = (xs.mapM f).map (List.map g) := by
  induction xs with
  | nil => rfl
  | cons x xs ih =>
    rw [mapM_cons, mapM_cons, ih]
    cases f x <;> cases xs.mapM f <;> rfl

lemma forall₂_join {S : α → γ → Prop} {T : β → γ → Prop} {zs : List γ} (hR : Forall₂ R xs ys)
    (hS : Forall₂ S xs zs) (hT : ∀ x ∈ xs, ∀ y z, R x y → S x z → T y z) : Forall₂ T ys zs := by
  induction hR generalizing zs with
  | nil =>
    cases hS
    exact .nil
  | cons hxy _ ih =>
    obtain ⟨z, zs, hxz, hrest, rfl⟩ := forall₂_cons_left_iff.mp hS
    obtain ⟨hx, hxs⟩ := forall_mem_cons.mp hT
    exact .cons (hx _ _ hxy hxz) (ih hrest hxs)

lemma forall₂_imp_mem {R S : α → β → Prop} (hR : Forall₂ R xs ys)
    (hS : ∀ x ∈ xs, ∀ y, R x y → S x y) : Forall₂ S xs ys := by
  have hrefl : Forall₂ (fun x x' => x = x') xs xs := forall₂_same.mpr fun _ _ => rfl
  refine forall₂_join hrefl hR ?_
  rintro x hx _ y rfl hxy
  exact hS x hx y hxy

lemma forall₂_exists {R : α → γ → Prop} {S : β → γ → Prop}
    (h : Forall₂ (fun x y => ∃ z, R x z ∧ S y z) xs ys) :
    ∃ zs, Forall₂ R xs zs ∧ Forall₂ S ys zs := by
  induction h with
  | nil => exact ⟨[], .nil, .nil⟩
  | cons hxy _ ih =>
    obtain ⟨z, hx, hy⟩ := hxy
    obtain ⟨zs, hxs, hys⟩ := ih
    exact ⟨z :: zs, .cons hx hxs, .cons hy hys⟩

lemma mapM_transfer {f' : α → Except Error γ} {P : β → Prop} {R : β → γ → Prop}
    (hf : ∀ x ∈ xs, ∀ y, f x = .ok y → P y → ∃ z, f' x = .ok z ∧ R y z) (h : xs.mapM f = .ok ys)
    (hP : ∀ y ∈ ys, P y) : ∃ zs, xs.mapM f' = .ok zs ∧ Forall₂ R ys zs := by
  obtain ⟨hlength, hzip⟩ := forall₂_iff_zip.mp (mapM_eq_ok.mp h)
  obtain ⟨zs, hzs, hR⟩ := forall₂_exists (forall₂_iff_zip.mpr ⟨hlength, fun {x y} hxy =>
    hf x (of_mem_zip hxy).1 y (hzip hxy) (hP y (of_mem_zip hxy).2)⟩)
  exact ⟨zs, mapM_eq_ok.mpr hzs, hR⟩

lemma pairwise_eraseDups [BEq α] [LawfulBEq α] {r : α → α → Prop} (h : xs.Pairwise r) :
    xs.eraseDups.Pairwise fun a b => r a b ∧ b ≠ a := by
  induction hn : xs.length using Nat.strong_induction_on generalizing xs with
  | _ n ih =>
    cases h with
    | nil => simp
    | @cons x xs hx hxs =>
      rw [eraseDups_cons, pairwise_cons]
      constructor
      · simp_all
      · grind

lemma nodup_eraseDups [BEq α] [LawfulBEq α] (xs : List α) : xs.eraseDups.Nodup :=
  (pairwise_eraseDups (pairwise_of_forall (R := fun _ _ => True) fun _ _ => trivial)).imp
    fun h => h.2.symm

lemma foldl_mem {f : α → α → α} (hf : ∀ a b, f a b = a ∨ f a b = b) (x : α) (xs : List α) :
    xs.foldl f x ∈ x :: xs := by
  induction xs generalizing x with
  | nil => exact mem_cons_self
  | cons y xs ih =>
    grind

lemma findIdx?_beq_of_mem {ns : List Nat} {m : Nat} (h : m ∈ ns) :
    ∃ k < ns.length, ns.findIdx? (· == m) = some k := by
  obtain ⟨k, hk⟩ := Option.isSome_iff_exists.mp
    (show (ns.findIdx? (· == m)).isSome by simpa [findIdx?_isSome] using h)
  exact ⟨k, (findIdx?_eq_some_iff_getElem.mp hk).1, hk⟩

lemma Slice.position_ofNat {n q : Nat} (h : q < n) : Slice.position n (.ofNat q) = .ok q := by
  have hneg : ¬ (q : Int) < 0 := by omega
  simp [Slice.position, Slice.position?, Value.ofNat, Value.int?, hneg, h]

namespace Update

variable {σ τ : Type}
variable {x : Update σ α} {f : α → Update σ β} {s s' : σ} {post : β → σ → Prop}
variable (inv : List α → σ → Prop) {a : α}

@[simp] lemma runFrom_throw (e : Error) (s : σ) :
    (throw e : Update σ α).runFrom s = (.error e, s) := rfl

@[simp] lemma runFrom_pure (a : α) (s : σ) : (pure a : Update σ α).runFrom s = (.ok a, s) := rfl

@[simp] lemma runFrom_lift (x : Except Error α) (s : σ) :
    (liftM x : Update σ α).runFrom s = (x, s) := by
  cases x <;> rfl

@[simp] lemma runFrom_check (x : Except Error α) (s : σ) :
    (check x : Update σ α).runFrom s = (x, s) := by
  cases x <;> rfl

lemma runFrom_bind (x : Update σ α) (f : α → Update σ β) (s : σ) :
    (x >>= f).runFrom s = match x.runFrom s with
      | (.ok a, s') => (f a).runFrom s'
      | (.error e, s') => (.error e, s') := by
  cases h : x.runFrom s with
  | mk r s' =>
    simp only [runFrom, ExceptT.run, StateT.run, Id.run] at h ⊢
    simp only [bind, ExceptT.bind, ExceptT.mk, StateT.bind]
    rw [h]
    cases r <;> rfl

lemma runFrom_bind_ok (h : x.runFrom s = (.ok a, s')) : (x >>= f).runFrom s = (f a).runFrom s' := by
  rw [runFrom_bind, h]

lemma runFrom_bind_cases {r : Except Error β} (h : (x >>= f).runFrom s = (r, s')) :
    (∃ e, r = .error e ∧ x.runFrom s = (.error e, s')) ∨
    ∃ a s₁, x.runFrom s = (.ok a, s₁) ∧ (f a).runFrom s₁ = (r, s') := by
  rw [runFrom_bind] at h
  grind

lemma of_runFrom_bind {b : β} (h : (x >>= f).runFrom s = (.ok b, s')) :
    ∃ a s₁, x.runFrom s = (.ok a, s₁) ∧ (f a).runFrom s₁ = (.ok b, s') := by
  rcases runFrom_bind_cases h with ⟨e, he, -⟩ | hok
  · cases he
  · exact hok

@[simp] lemma runFrom_get (s : σ) : (get : Update σ σ).runFrom s = (.ok s, s) := rfl

@[simp] lemma runFrom_set (s t : σ) : (set t : Update σ PUnit).runFrom s = (.ok ⟨⟩, t) := rfl

@[simp] lemma runFrom_modify (f : σ → σ) (s : σ) :
    (modify f : Update σ PUnit).runFrom s = (.ok ⟨⟩, f s) := rfl

lemma runFrom_replace {f : σ → Except Error σ} {t : σ} (h : f s = .ok t) :
    (replace f).runFrom s = (.ok (), t) := by
  simp only [replace, runFrom_bind, runFrom_get, runFrom_check, h, runFrom_set]

lemma runFrom_replace_error {f : σ → Except Error σ} {e : Error} (h : f s = .error e) :
    (replace f).runFrom s = (.error e, s) := by
  simp only [replace, runFrom_bind, runFrom_get, runFrom_check, h]

lemma runFrom_within (part : σ → τ) (put : τ → σ → σ) (x : Update τ α) (s : σ) :
    (x.within part put).runFrom s = ((x.runFrom (part s)).1, put (x.runFrom (part s)).2 s) := by
  simp only [within, runFrom_bind, runFrom_get, runFrom_set, runFrom_check]

/-- A step succeeds from a state, and its result and the state after it are as described. -/
def Finishes (x : Update σ α) (s : σ) (post : α → σ → Prop) : Prop :=
  ∃ a s', x.runFrom s = (.ok a, s') ∧ post a s'

lemma finishes_of_run {post : α → σ → Prop} (h : x.runFrom s = (.ok a, s')) (hp : post a s') :
    x.Finishes s post :=
  ⟨a, s', h, hp⟩

namespace Finishes

variable {post : α → σ → Prop}

lemma mono {post' : α → σ → Prop} (h : x.Finishes s post) (hp : ∀ a s', post a s' → post' a s') :
    x.Finishes s post' := by
  obtain ⟨a, s', hrun, ha⟩ := h
  exact ⟨a, s', hrun, hp a s' ha⟩

lemma bind {f : α → Update σ β} {post' : β → σ → Prop} (h : x.Finishes s post)
    (hf : ∀ a s', post a s' → (f a).Finishes s' post') : (x >>= f).Finishes s post' := by
  obtain ⟨a, s', hrun, ha⟩ := h
  obtain ⟨b, s'', hrun', hb⟩ := hf a s' ha
  exact ⟨b, s'', (runFrom_bind_ok hrun).trans hrun', hb⟩

end Finishes

lemma finishes_bind_of_run {x : Update σ α} {s s' : σ} (h : x.runFrom s = (.ok a, s'))
    (hf : (f a).Finishes s' post) :
    (x >>= f).Finishes s post := by
  obtain ⟨b, s'', hrun, hb⟩ := hf
  exact ⟨b, s'', (runFrom_bind_ok h).trans hrun, hb⟩

lemma finishes_bind_get {f : σ → Update σ β} (hf : (f s).Finishes s post) :
    (get >>= f).Finishes s post :=
  finishes_bind_of_run (runFrom_get s) hf

lemma finishes_bind_lift {x : Except Error α} (h : x = .ok a) (hf : (f a).Finishes s post) :
    ((liftM x : Update σ α) >>= f).Finishes s post :=
  finishes_bind_of_run ((runFrom_lift x s).trans (congrArg (·, s) h)) hf

/-- A loop finishes if each of its steps keeps what holds between them, which may speak of the items
that are left. -/
theorem forM_finishes {f : α → Update σ PUnit}
    (hstep : ∀ x rest s, inv (x :: rest) s → (f x).Finishes s fun _ s' => inv rest s')
    (h : inv xs s) : (xs.forM f).Finishes s fun _ s' => inv [] s' := by
  induction xs generalizing s with
  | nil => exact ⟨⟨⟩, s, rfl, h⟩
  | cons x xs ih => exact (hstep x xs s h).bind fun _ s' hs' => ih hs'

/-- A loop from the last item to the first; the invariant may speak of the items that are done. -/
theorem forM_reverse_finishes {f : α → Update σ PUnit}
    (hstep : ∀ front x done s, xs = front ++ x :: done → inv done s → (f x).Finishes s fun _ s' => inv (x :: done) s')
    (h : inv [] s) : (xs.reverse.forM f).Finishes s fun _ s' => inv xs s' := by
  refine (forM_finishes (fun rest s' => ∃ done, xs = rest.reverse ++ done ∧ inv done s') ?_
    ⟨[], by simp, h⟩).mono ?_
  · simp_all
  · rintro _ s' ⟨done, hxs, hs'⟩
    exact hxs ▸ hs'

lemma filterM_look {f : α → Update σ Bool} {p : α → Bool}
    (h : ∀ x ∈ xs, (f x).runFrom s = (.ok (p x), s)) :
    (xs.filterM f).runFrom s = (.ok (xs.filter p), s) := by
  have haux : ∀ ys acc : List α, (∀ x ∈ ys, x ∈ xs) →
      (ys.filterAuxM f acc).runFrom s = (.ok ((ys.filter p).reverse ++ acc), s) := by
    intro ys
    induction ys with
    | nil => exact fun acc _ => rfl
    | cons y ys ih =>
      intro acc hys
      rw [List.filterAuxM, runFrom_bind, h y (hys y mem_cons_self)]
      grind
  rw [List.filterM, runFrom_bind, haux xs [] fun _ hx => hx]
  simp

lemma mapM_look {g : α → β} (h : ∀ x ∈ xs, (f x).runFrom s = (.ok (g x), s)) :
    (xs.mapM f).runFrom s = (.ok (xs.map g), s) := by
  induction xs with
  | nil => rfl
  | cons x xs ih =>
    rw [List.mapM_cons, runFrom_bind, h x mem_cons_self]
    simp only [runFrom_bind, ih fun y hy => h y (mem_cons_of_mem x hy), runFrom_pure,
      map_cons]

end Update

end GadgetCircuits

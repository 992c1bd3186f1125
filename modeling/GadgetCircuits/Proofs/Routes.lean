import GadgetCircuits.Proofs.Topology

/-!
The table of routes. Every finite entry is the length of a walk that begins with the first step of the
entry, and in the end no walk is shorter; so following the first steps gives a shortest path. Between qubits
that are not joined the first step is to qubit 1, from where the way goes on if it can, and never ends
otherwise.
-/

namespace GadgetCircuits

open List SimpleGraph Value

/-- A loop reaches what one of its steps brings about and no step undoes, as long as `q` holds. -/
theorem foldl_reaches {α β : Type} {f : β → α → β} {q p : β → Prop} {xs : List α} {x : α}
    (hq : ∀ b, ∀ y ∈ xs, q b → q (f b y)) (hkeep : ∀ b, ∀ y ∈ xs, q b → p b → p (f b y))
    (hx : x ∈ xs) (hdone : ∀ b, q b → p (f b x)) {b : β} (hb : q b) : p (xs.foldl f b) := by
  obtain ⟨front, rest, rfl⟩ := append_of_mem hx
  have hmem : ∀ y ∈ rest, y ∈ front ++ x :: rest := fun y hy =>
    mem_append_right front (mem_cons_of_mem x hy)
  have hfront : q (front.foldl f b) :=
    List.foldlRecOn front f hb fun b hb y hy => hq b y (mem_append_left _ hy) hb
  rw [foldl_append, foldl_cons]
  refine (List.foldlRecOn (motive := fun b => q b ∧ p b) rest f
    ⟨hq _ x hx hfront, hdone _ hfront⟩ fun b hb y hy => ?_).2
  exact ⟨hq b y (hmem y hy) hb.1, hkeep b y (hmem y hy) hb.1 hb.2⟩

namespace Routes

variable {n : Nat} {t : Topology} {r : Routes}
variable {i j k : Fin t.size}

/-- The distance in the table as a number, which may be infinite. -/
def far (r : Routes) (i j : Nat) : ℕ∞ :=
  (r.distance i j).elim ⊤ fun d => (d : ℕ∞)

lemma far_eq_coe_iff {i j d : Nat} : r.far i j = d ↔ r.distance i j = some d := by
  rw [far]
  cases r.distance i j <;> simp

lemma far_eq_top_iff {i j : Nat} : r.far i j = ⊤ ↔ r.distance i j = none := by
  rw [far]
  cases r.distance i j <;> simp

structure Square (n : Nat) (r : Routes) : Prop where
  size : r.size = n
  dist : r.dist.size = n * n
  next : r.next.size = n * n

lemma place_eq_iff {i j a b : Nat} (hb : b < n) (hj : j < n) :
    n * a + b = n * i + j ↔ a = i ∧ b = j := by
  constructor
  · intro h
    have hdiv : ∀ {i j}, j < n → (n * i + j) / n = i := fun hj => by
      rw [Nat.mul_add_div (by omega), Nat.div_eq_of_lt hj, Nat.add_zero]
    grind
  · rintro ⟨rfl, rfl⟩
    rfl

lemma place_lt {m i j : Nat} (hi : i < m) (hj : j < n) : n * i + j < m * n := by
  have hrow := Nat.mul_le_mul_left n (Nat.succ_le_of_lt hi)
  rw [Nat.mul_succ, Nat.mul_comm n m] at hrow
  omega

lemma entry_eq_iff (i j a b : Fin n) : (a : Nat) * n + b = i * n + j ↔ a = i ∧ b = j := by
  rw [Nat.mul_comm, Nat.mul_comm (i : Nat), place_eq_iff b.isLt j.isLt, Fin.ext_iff, Fin.ext_iff]

lemma entry_lt (i j : Fin n) : (i : Nat) * n + j < n * n := by
  rw [Nat.mul_comm (i : Nat)]
  exact place_lt i.isLt j.isLt

lemma Square.setEntry (hr : r.Square n) (i j d s : Nat) : (r.setEntry i j d s).Square n where
  size := hr.size
  dist := by simpa [Routes.setEntry] using hr.dist
  next := by simpa [Routes.setEntry] using hr.next

lemma getElem?_setEntry {α : Type} {xs : Array α} (hx : xs.size = n * n) (i j a b : Fin n) (v : α) :
    (xs.setIfInBounds (i * n + j) v)[(a : Nat) * n + b]? =
      if a = i ∧ b = j then some v else xs[(a : Nat) * n + b]? := by
  rw [Array.getElem?_setIfInBounds]
  by_cases h : a = i ∧ b = j
  · rw [if_pos ((entry_eq_iff i j a b).mpr h).symm, if_pos h, if_pos (hx ▸ entry_lt i j)]
  · rw [if_neg fun e => h ((entry_eq_iff i j a b).mp e.symm), if_neg h]

lemma distance_setEntry (hr : r.Square n) (i j a b : Fin n) (d s : Nat) :
    (r.setEntry i j d s).distance a b = if a = i ∧ b = j then some d else r.distance a b := by
  simp only [distance, Routes.setEntry, hr.size, getElem?_setEntry hr.dist]
  split <;> rfl

lemma step_setEntry (hr : r.Square n) (i j a b : Fin n) (d s : Nat) :
    (r.setEntry i j d s).step a b = if a = i ∧ b = j then s else r.step a b := by
  simp only [step, Routes.setEntry, hr.size, getElem?_setEntry hr.next]
  split <;> rfl

lemma far_setEntry (hr : r.Square n) (i j a b : Fin n) (d s : Nat) :
    (r.setEntry i j d s).far a b = if a = i ∧ b = j then (d : ℕ∞) else r.far a b := by
  rw [far, distance_setEntry hr, far]
  split <;> rfl

/-- A finite entry is the length of a walk that begins with the first step of the entry; without a walk the
first step is to qubit 1. -/
structure Sound (t : Topology) (r : Routes) : Prop extends r.Square t.size where
  walk : ∀ {i j : Fin t.size} {d : Nat}, r.distance i j = some d →
    ∃ w : t.graph.Walk i j, w.length = d ∧ (i ≠ j → (w.snd : Nat) = r.step i j)
  blank : ∀ i j : Fin t.size, r.distance i j = none → r.step i j = 1

lemma Sound.setEntry (hr : r.Sound t) (w : t.graph.Walk i j) :
    (r.setEntry i j w.length w.snd).Sound t where
  toSquare := hr.toSquare.setEntry _ _ _ _
  walk := by
    intro a b d h
    rw [distance_setEntry hr.toSquare] at h
    rw [step_setEntry hr.toSquare]
    split at h
    · grind
    · rename_i hab
      rw [if_neg hab]
      exact hr.walk h
  blank := by
    intro a b h
    rw [distance_setEntry hr.toSquare] at h
    rw [step_setEntry hr.toSquare]
    split at h
    · cases h
    · rename_i hab
      rw [if_neg hab]
      exact hr.blank a b h

def Settled (t : Topology) (r : Routes) : Prop :=
  ∀ i : Fin t.size, r.distance i i = some 0

lemma sound_blank (t : Topology) :
    Sound t ⟨t.size, Array.replicate (t.size * t.size) none, Array.replicate (t.size * t.size) 1⟩ where
  size := rfl
  dist := Array.size_replicate
  next := Array.size_replicate
  walk := by
    intro i j d h
    simp [distance, entry_lt i j] at h
  blank := by
    intro i j _
    simp [step, entry_lt i j]

lemma adj_of_mem (ht : t.WellFormed) {c : Nat × Nat} (hc : c ∈ t.couplings) :
    ∃ a b : Fin t.size, c = (↑a, ↑b) ∧ t.graph.Adj a b := by
  obtain ⟨hlt, hsize⟩ := ht c hc
  refine ⟨⟨c.1, hlt.trans hsize⟩, ⟨c.2, hsize⟩, rfl, fun e => hlt.ne (congrArg Fin.val e), ?_⟩
  exact (Topology.hasCoupling_iff ht c.1 c.2).mpr (.inl hc)

lemma coupled_spec (ht : t.WellFormed) (hr : r.Sound t) :
    (t.couplings.foldl (fun r c => (r.setEntry c.1 c.2 1 c.2).setEntry c.2 c.1 1 c.1) r).Sound t ∧
    ∀ a b, t.graph.Adj a b →
      (t.couplings.foldl (fun r c => (r.setEntry c.1 c.2 1 c.2).setEntry c.2 c.1 1 c.1) r).far a b ≤ 1 := by
  have hsound : ∀ (r : Routes), ∀ c ∈ t.couplings, r.Sound t →
      ((r.setEntry c.1 c.2 1 c.2).setEntry c.2 c.1 1 c.1).Sound t := by
    intro r c hc hr
    obtain ⟨a, b, rfl, hab⟩ := adj_of_mem ht hc
    exact (hr.setEntry hab.toWalk).setEntry hab.symm.toWalk
  have hfar : ∀ (r : Routes), ∀ c ∈ t.couplings, r.Sound t → ∀ a b : Fin t.size,
      ((r.setEntry c.1 c.2 1 c.2).setEntry c.2 c.1 1 c.1).far a b =
        if ((a : Nat), (b : Nat)) = c ∨ ((b : Nat), (a : Nat)) = c then 1 else r.far a b := by
    intro r c hc hr a b
    obtain ⟨i, j, rfl, -⟩ := adj_of_mem ht hc
    rw [far_setEntry (hr.toSquare.setEntry _ _ _ _), far_setEntry hr.toSquare]
    simp only [Prod.mk.injEq, Fin.val_inj]
    grind
  refine ⟨foldlRecOn t.couplings _ hr fun r hr c hc => hsound r c hc hr, fun a b hab => ?_⟩
  have hkeep : ∀ (r : Routes), ∀ c ∈ t.couplings, r.Sound t → r.far a b ≤ 1 →
      ((r.setEntry c.1 c.2 1 c.2).setEntry c.2 c.1 1 c.1).far a b ≤ 1 := by
    intro r c hc hr h
    rw [hfar r c hc hr]
    split
    · exact le_rfl
    · exact h
  rcases (Topology.hasCoupling_iff ht _ _).mp hab.2 with hc | hc
  · exact foldl_reaches hsound hkeep hc (fun r hr => by rw [hfar r _ hc hr, if_pos (.inl rfl)]) hr
  · exact foldl_reaches hsound hkeep hc (fun r hr => by rw [hfar r _ hc hr, if_pos (.inr rfl)]) hr

lemma settled_spec (hr : r.Sound t) : (t.qubits.foldl (fun r v => r.setEntry v v 0 v) r).Sound t ∧
    (t.qubits.foldl (fun r v => r.setEntry v v 0 v) r).Settled t ∧
    ∀ a b : Fin t.size, (t.qubits.foldl (fun r v => r.setEntry v v 0 v) r).far a b ≤ r.far a b := by
  have hsound : ∀ (r : Routes), ∀ v ∈ t.qubits, r.Sound t → (r.setEntry v v 0 v).Sound t := by
    intro r v hv hr
    exact hr.setEntry (.nil : t.graph.Walk ⟨v, mem_range.mp hv⟩ ⟨v, mem_range.mp hv⟩)
  have hdist : ∀ (r : Routes), ∀ v ∈ t.qubits, r.Sound t → ∀ a b : Fin t.size,
      (r.setEntry v v 0 v).distance a b =
        if (a : Nat) = v ∧ (b : Nat) = v then some 0 else r.distance a b := by
    intro r v hv hr a b
    have h := distance_setEntry hr.toSquare ⟨v, mem_range.mp hv⟩ ⟨v, mem_range.mp hv⟩ a b 0 v
    simpa only [Fin.ext_iff] using h
  refine ⟨foldlRecOn t.qubits _ hr fun r hr v hv => hsound r v hv hr, fun i => ?_, fun a b => ?_⟩
  · refine foldl_reaches (x := (i : Nat)) (p := fun r => r.distance i i = some 0) hsound
      (fun r v hv hr h => ?_) (mem_range.mpr i.isLt)
      (fun r hr => ?_) hr
    · rw [hdist r v hv hr, h, ite_self]
    · rw [hdist r i (mem_range.mpr i.isLt) hr, if_pos ⟨rfl, rfl⟩]
  · refine (foldlRecOn (motive := fun r' => Sound t r' ∧ r'.far a b ≤ r.far a b) t.qubits _
      ⟨hr, le_rfl⟩ fun r' hr' v hv => ⟨hsound r' v hv hr'.1, ?_⟩).2
    rw [far, hdist r' v hv hr'.1]
    split
    · exact zero_le
    · exact hr'.2

lemma direct_spec (ht : t.WellFormed) :
    (direct t).Sound t ∧ (direct t).Settled t ∧ ∀ a b, t.graph.Adj a b → (direct t).far a b ≤ 1 := by
  obtain ⟨hcoupled, hnear⟩ := coupled_spec ht (sound_blank t)
  obtain ⟨hsound, hsettled, hle⟩ := settled_spec hcoupled
  exact ⟨hsound, hsettled, fun a b hab => (hle a b).trans (hnear a b hab)⟩

lemma improve_cases (r : Routes) (k i j : Nat) :
    (r.improve k i j = r ∧ r.far i j ≤ r.far i k + r.far k j) ∨
    ∃ a b, r.distance i k = some a ∧ r.distance k j = some b ∧ ((a + b : Nat) : ℕ∞) < r.far i j ∧
      r.improve k i j = r.setEntry i j (a + b) (r.step i k) := by
  unfold improve far
  cases r.distance i k with
  | none => exact .inl ⟨rfl, by simp⟩
  | some a =>
    cases r.distance k j with
    | none => exact .inl ⟨rfl, by simp⟩
    | some b =>
      cases r.distance i j with
      | none => exact .inr ⟨a, b, rfl, rfl, ENat.natCast_lt_top _, rfl⟩
      | some d =>
        by_cases h : a + b < d
        · exact .inr ⟨a, b, rfl, rfl, ENat.natCast_lt_natCast.mpr h, by simp [h]⟩
        · refine .inl ⟨by simp [h], ?_⟩
          simp only [Option.elim_some]
          exact_mod_cast Nat.le_of_not_lt h

/-- A way over another stop is longer only by something: the stop is neither end. -/
theorem Settled.ne_of_improve (hr : r.Settled t) {a b : Nat} (hik : r.distance i k = some a)
    (hkj : r.distance k j = some b) (hlt : ((a + b : Nat) : ℕ∞) < r.far i j) : i ≠ k ∧ i ≠ j := by
  constructor
  · rintro rfl
    rw [hr i] at hik
    cases hik
    rw [far, hkj, Nat.zero_add] at hlt
    exact lt_irrefl _ hlt
  · rintro rfl
    rw [far, hr i] at hlt
    exact not_lt_zero hlt

lemma improve_sound (hr : r.Sound t) (hs : r.Settled t) (k i j : Fin t.size) :
    (r.improve k i j).Sound t ∧ (r.improve k i j).Settled t := by
  rcases improve_cases r k i j with ⟨heq, -⟩ | ⟨a, b, hik, hkj, hlt, heq⟩
  · rw [heq]
    exact ⟨hr, hs⟩
  · obtain ⟨hne, hne'⟩ := hs.ne_of_improve hik hkj hlt
    obtain ⟨v, rfl, hv⟩ := hr.walk hik
    obtain ⟨w, rfl, -⟩ := hr.walk hkj
    -- The way over `k` begins as the way to `k` does, which has at least one step.
    have hsnd : (v.append w).snd = v.snd := by
      cases v with
      | nil => exact absurd rfl hne
      | cons hadj v => simp [Walk.snd]
    rw [heq, ← Walk.length_append, ← hv hne, ← hsnd]
    refine ⟨hr.setEntry _, fun a => ?_⟩
    rw [distance_setEntry hr.toSquare, if_neg, hs a]
    rintro ⟨rfl, rfl⟩
    exact hne' rfl

lemma improve_far_le (hr : r.Square n) (k i j a b : Fin n) : (r.improve k i j).far a b ≤ r.far a b := by
  rcases improve_cases r k i j with ⟨heq, -⟩ | ⟨d, d', -, -, hlt, heq⟩
  · rw [heq]
  · rw [heq, far_setEntry hr]
    grind

lemma improve_far_le_add (hr : r.Square n) (k i j : Fin n) :
    (r.improve k i j).far i j ≤ r.far i k + r.far k j := by
  rcases improve_cases r k i j with ⟨heq, hle⟩ | ⟨a, b, hik, hkj, -, heq⟩
  · rw [heq]
    exact hle
  · rw [heq, far_setEntry hr, if_pos ⟨rfl, rfl⟩, far_eq_coe_iff.mpr hik, far_eq_coe_iff.mpr hkj]
    exact_mod_cast le_rfl

def allow (n k : Nat) (r : Routes) : Routes :=
  (List.range n).foldl (fun r i => (List.range n).foldl (fun r j => r.improve k i j) r) r

/-- What holds while the entries are improved: nothing is farther than it was before. -/
structure Nearer (t : Topology) (before r : Routes) : Prop where
  sound : r.Sound t
  settled : r.Settled t
  le : ∀ a b : Fin t.size, r.far a b ≤ before.far a b

lemma Nearer.improve {before : Routes} (h : Nearer t before r) (k i j : Fin t.size) :
    Nearer t before (r.improve k i j) where
  sound := (improve_sound h.sound h.settled k i j).1
  settled := (improve_sound h.sound h.settled k i j).2
  le := fun a b => (improve_far_le h.sound.toSquare k i j a b).trans (h.le a b)

lemma allow_spec (hr : r.Sound t) (hs : r.Settled t) (k : Fin t.size) :
    Nearer t r (r.allow t.size k) ∧
      ∀ i j : Fin t.size, (r.allow t.size k).far i j ≤ r.far i k + r.far k j := by
  have hstart : Nearer t r r := ⟨hr, hs, fun _ _ => le_rfl⟩
  have hrow : ∀ (r' : Routes), ∀ i ∈ range t.size, Nearer t r r' →
      Nearer t r ((range t.size).foldl (fun r j => r.improve k i j) r') := fun r' i hi h =>
    foldlRecOn _ _ h fun _ h j hj => h.improve k ⟨i, mem_range.mp hi⟩ ⟨j, mem_range.mp hj⟩
  refine ⟨foldlRecOn _ _ hstart fun r' h i hi => hrow r' i hi h, fun i j => ?_⟩
  have hcell : ∀ (r' : Routes) (i' : Nat), i' ∈ range t.size → ∀ j' ∈ range t.size,
      Nearer t r r' → r'.far i j ≤ r.far i k + r.far k j →
      (r'.improve k i' j').far i j ≤ r.far i k + r.far k j := by
    intro r' i' hi' j' hj' h hle
    exact (improve_far_le h.sound.toSquare k ⟨i', mem_range.mp hi'⟩ ⟨j', mem_range.mp hj'⟩
      i j).trans hle
  refine foldl_reaches (x := (i : Nat)) (p := fun r' => r'.far i j ≤ r.far i k + r.far k j) hrow
    (fun r' i' hi' h hle => ?_) (mem_range.mpr i.isLt) (fun r' h => ?_) hstart
  · refine (foldlRecOn (motive := fun r' => Nearer t r r' ∧ r'.far i j ≤ r.far i k + r.far k j) _ _
      ⟨h, hle⟩ fun r' h j' hj' => ⟨?_, hcell r' i' hi' j' hj' h.1 h.2⟩).2
    exact h.1.improve k ⟨i', mem_range.mp hi'⟩ ⟨j', mem_range.mp hj'⟩
  · refine foldl_reaches (x := (j : Nat)) (q := Nearer t r)
      (p := fun r' => r'.far i j ≤ r.far i k + r.far k j)
      (fun r' j' hj' h => h.improve k i ⟨j', mem_range.mp hj'⟩)
      (fun r' j' hj' h hle => hcell r' i (mem_range.mpr i.isLt) j' hj' h hle)
      (mem_range.mpr j.isLt) (fun r' h => ?_) h
    exact (improve_far_le_add h.sound.toSquare k i j).trans (add_le_add (h.le i k) (h.le k j))

/-- A way of so many steps, put together at stops below a bound. -/
inductive Stretch (t : Topology) (bound : Nat) : Fin t.size → Fin t.size → Nat → Prop
  | stay (i : Fin t.size) : Stretch t bound i i 0
  | step {i j : Fin t.size} (h : t.graph.Adj i j) : Stretch t bound i j 1
  | join {i j k : Fin t.size} {l m : Nat} (hk : (k : Nat) < bound) (h : Stretch t bound i k l)
      (h' : Stretch t bound k j m) : Stretch t bound i j (l + m)

/-- With one more stop, a way goes over it once or not at all, or can be made shorter. -/
theorem Stretch.split {l : Nat} (h : Stretch t (k + 1) i j l) :
    (∃ m ≤ l, Stretch t k i j m) ∨ ∃ a b, a + b ≤ l ∧ Stretch t k i k a ∧ Stretch t k k j b := by
  induction h with
  | stay i => exact .inl ⟨0, le_rfl, .stay i⟩
  | step h => exact .inl ⟨1, le_rfl, .step h⟩
  | @join i j x l m hx _ _ ih ih' =>
    rcases Nat.lt_succ_iff_lt_or_eq.mp hx with hx | hx
    · rcases ih with ⟨l', hl, h⟩ | ⟨a, b, hab, ha, hb⟩ <;> rcases ih' with ⟨m', hm, h'⟩ | ⟨c, d, hcd, hc, hd⟩
      · exact .inl ⟨l' + m', by omega, .join hx h h'⟩
      · exact .inr ⟨l' + c, d, by omega, .join hx h hc, hd⟩
      · exact .inr ⟨a, b + m', by omega, ha, .join hx hb h'⟩
      · exact .inr ⟨a, d, by omega, ha, hd⟩
    · obtain rfl : x = k := Fin.ext hx
      have hto : ∃ a ≤ l, Stretch t x i x a := by grind
      have hfrom : ∃ b ≤ m, Stretch t x x j b := by grind
      obtain ⟨a, ha, hia⟩ := hto
      obtain ⟨b, hb, hbj⟩ := hfrom
      exact .inr ⟨a, b, by omega, hia, hbj⟩

lemma Stretch.of_walk (w : t.graph.Walk i j) : Stretch t t.size i j w.length := by
  induction w with
  | nil => exact .stay _
  | @cons i k j hadj w ih =>
    rw [Walk.length_cons, Nat.add_comm]
    exact .join k.isLt (.step hadj) ih

/-- No way over stops below the bound is shorter than the entry. -/
def Covers (t : Topology) (bound : Nat) (r : Routes) : Prop :=
  ∀ i j l, Stretch t bound i j l → r.far i j ≤ l

lemma direct_covers (ht : t.WellFormed) : (direct t).Covers t 0 := by
  obtain ⟨-, hsettled, hnear⟩ := direct_spec ht
  intro i j l h
  cases h with
  | stay => rw [far, hsettled i]; exact le_rfl
  | step h => exact_mod_cast hnear _ _ h
  | join hk => exact absurd hk (Nat.not_lt_zero _)

lemma Covers.allow (h : r.Covers t k) (hr : r.Sound t) (hs : r.Settled t) :
    (r.allow t.size k).Covers t (k + 1) := by
  obtain ⟨hnear, hadd⟩ := allow_spec hr hs k
  intro i j l hl
  rcases hl.split with ⟨m, hm, h'⟩ | ⟨a, b, hab, ha, hb⟩
  · exact (hnear.le i j).trans ((h i j m h').trans (by exact_mod_cast hm))
  · refine (hadd i j).trans ((add_le_add (h i k a ha) (h k j b hb)).trans ?_)
    exact_mod_cast hab

lemma allowed_spec (ht : t.WellFormed) {m : Nat} (hm : m ≤ t.size) :
    ((range m).foldl (fun r k => r.allow t.size k) (direct t)).Sound t ∧
    ((range m).foldl (fun r k => r.allow t.size k) (direct t)).Settled t ∧
    ((range m).foldl (fun r k => r.allow t.size k) (direct t)).Covers t m := by
  induction m with
  | zero => exact ⟨(direct_spec ht).1, (direct_spec ht).2.1, direct_covers ht⟩
  | succ m ih =>
    obtain ⟨hsound, hsettled, hcovers⟩ := ih (Nat.le_of_succ_le hm)
    rw [range_succ, foldl_append, foldl_cons, foldl_nil]
    obtain ⟨hnear, -⟩ := allow_spec hsound hsettled ⟨m, hm⟩
    exact ⟨hnear.sound, hnear.settled, Covers.allow (k := ⟨m, hm⟩) hcovers hsound hsettled⟩

end Routes

namespace Topology

open Routes

variable {t : Topology}
variable {i j : Fin t.size}

variable (ht : t.WellFormed)
include ht

lemma routes_spec : t.routes.Sound t ∧ t.routes.Settled t ∧ t.routes.Covers t t.size := by
  rw [routes, close, (direct_spec ht).1.size]
  exact allowed_spec ht le_rfl

lemma routes_far (i j : Fin t.size) : t.routes.far i j = t.graph.edist i j := by
  obtain ⟨hsound, -, hcovers⟩ := routes_spec ht
  apply le_antisymm
  · by_cases h : t.graph.Reachable i j
    · obtain ⟨w, hw⟩ := h.exists_walk_length_eq_edist
      rw [← hw]
      exact hcovers i j _ (.of_walk w)
    · rw [edist_eq_top_of_not_reachable h]
      exact le_top
  · cases h : t.routes.distance i j with
    | none => rw [far_eq_top_iff.mpr h]; exact le_top
    | some d =>
      obtain ⟨w, rfl, -⟩ := hsound.walk h
      rw [far_eq_coe_iff.mpr h]
      exact edist_le w

lemma routes_distance (h : t.graph.Reachable i j) :
    t.routes.distance i j = some (t.graph.dist i j) := by
  rw [← far_eq_coe_iff, routes_far ht, h.coe_dist_eq_edist]

lemma routes_distance_apart (h : ¬ t.graph.Reachable i j) : t.routes.distance i j = none := by
  rw [← far_eq_top_iff, routes_far ht, edist_eq_top_of_not_reachable h]

lemma routes_step (h : t.graph.Reachable i j) (hne : i ≠ j) :
    ∃ s : Fin t.size, t.routes.step i j = s ∧ t.graph.Adj i s ∧ t.graph.Reachable s j ∧
      t.graph.dist i j = t.graph.dist s j + 1 := by
  obtain ⟨w, hw, hstep⟩ := (routes_spec ht).1.walk (routes_distance ht h)
  cases w with
  | nil => exact absurd rfl hne
  | @cons _ s _ hadj w =>
    obtain ⟨v, hv⟩ := w.reachable.exists_walk_length_eq_dist
    have hle := dist_le w
    have hle' := dist_le (v.cons hadj)
    rw [Walk.length_cons] at hw hle'
    refine ⟨s, ?_, hadj, w.reachable, by omega⟩
    simpa [Walk.snd] using (hstep hne).symm

omit ht

lemma follow_self (r : Routes) (fuel i : Nat) : r.follow fuel i i = some [] := by
  cases fuel <;> simp [follow]

lemma follow_succ (r : Routes) {i j : Nat} (hne : i ≠ j) (fuel : Nat) :
    r.follow (fuel + 1) i j = (r.follow fuel (r.step i j) j).map fun stops => r.step i j :: stops := by
  rw [follow, if_neg hne]

lemma cons_stops (w : t.graph.Walk i j) :
    (i : Nat) :: w.support.tail.map Fin.val = w.support.map Fin.val := by
  rw [← map_cons, Walk.cons_tail_support]

lemma follow_routes (ht : t.WellFormed) (h : t.graph.Reachable i j) :
    ∃ w : t.graph.Walk i j, w.length = t.graph.dist i j ∧
      ∀ fuel, t.graph.dist i j ≤ fuel → t.routes.follow fuel i j = some (w.support.tail.map Fin.val) := by
  induction hd : t.graph.dist i j generalizing i with
  | zero =>
    obtain rfl := h.dist_eq_zero_iff.mp hd
    exact ⟨.nil, rfl, fun fuel _ => follow_self _ fuel i⟩
  | succ d ih =>
    have hne : i ≠ j := by
      rintro rfl
      simp at hd
    obtain ⟨s, hs, hadj, hreach, hdist⟩ := routes_step ht h hne
    obtain ⟨w, hw, hfollow⟩ := ih hreach (by omega)
    refine ⟨w.cons hadj, by rw [Walk.length_cons, hw], fun fuel hfuel => ?_⟩
    obtain ⟨fuel, rfl⟩ := Nat.exists_eq_succ_of_ne_zero (show fuel ≠ 0 by omega)
    rw [follow_succ _ (fun e => hne (Fin.ext e)), hs, hfollow fuel (by omega),
      Walk.support_cons, tail_cons, ← cons_stops]
    rfl

lemma dist_lt_size (h : t.graph.Reachable i j) : t.graph.dist i j < t.size := by
  obtain ⟨w, hpath, hw⟩ := h.exists_path_of_dist
  rw [← hw]
  simpa using hpath.length_lt

lemma onward_routes (ht : t.WellFormed) (h : t.graph.Reachable i j) :
    ∃ w : t.graph.Walk i j, w.length = t.graph.dist i j ∧
      t.routes.onward i j = .ok (w.support.tail.map Fin.val) := by
  obtain ⟨w, hw, hfollow⟩ := follow_routes ht h
  refine ⟨w, hw, ?_⟩
  rw [onward, (routes_spec ht).1.size, hfollow _ (dist_lt_size h).le]

lemma route_routes (ht : t.WellFormed) (h : t.graph.Reachable i j) :
    ∃ w : t.graph.Walk i j, w.length = t.graph.dist i j ∧
      t.routes.route i j = .ok (w.support.map Fin.val) := by
  obtain ⟨w, hw, honward⟩ := onward_routes ht h
  refine ⟨w, hw, ?_⟩
  rw [route, honward, ok_bind, ← cons_stops]
  rfl

lemma tableIndex_ofNat (t : Topology) (i : Fin t.size) : t.tableIndex (.ofNat i) = .ok i := by
  have hneg : ¬ ((i : Nat) : Int) < 0 := by omega
  simp [tableIndex, ofNat, int?, hneg]

lemma distanceOf_ofNat (t : Topology) (i j : Fin t.size) :
    t.distanceOf (.ofNat i) (.ofNat j) = .ok (t.routes.distance i j) := by
  simp [distanceOf, qubitOf, ofNat, int?]

lemma routeOf_self (t : Topology) (i : Fin t.size) :
    t.routeOf (.ofNat i) (.ofNat i) = .ok [((i : Nat) : Int)] := by
  simp only [routeOf, tableIndex_ofNat, ok_bind, beq_self_eq_true, if_true]
  rfl

lemma routeOf_ofNat (t : Topology) {i j : Fin t.size} (hne : i ≠ j) :
    t.routeOf (.ofNat i) (.ofNat j) = (t.routes.onward (t.routes.step i j) j).map fun stops =>
      ((i : Nat) :: t.routes.step i j :: stops).map Int.ofNat := by
  have hints : ((ofNat i).int? == (ofNat j).int?) = false := by
    simpa [ofNat, int?] using fun e => hne (Fin.ext e)
  have hneg : ¬ ((ofNat j).int?).getD 0 < 0 := by simp [ofNat, int?]
  simp only [routeOf, tableIndex_ofNat, ok_bind, hints, Bool.false_eq_true, if_false, hneg]
  cases t.routes.onward (t.routes.step i j) j <;> rfl

/-- Distances are lengths of shortest paths, infinite where there are none, and the route between two
joined qubits is a shortest path without a repetition. -/
theorem distanceOf_routeOf_exact (ht : t.WellFormed) (a b : Fin t.size) :
    (t.graph.Reachable a b →
      t.distanceOf (.ofNat a) (.ofNat b) = .ok (some (t.graph.dist a b)) ∧
      ∃ w : t.graph.Walk a b, w.IsPath ∧ w.length = t.graph.dist a b ∧
        t.routeOf (.ofNat a) (.ofNat b) = .ok (w.support.map fun q : Fin t.size => ((q : Nat) : Int))) ∧
    (¬ t.graph.Reachable a b → t.distanceOf (.ofNat a) (.ofNat b) = .ok none) := by
  refine ⟨fun h => ⟨?_, ?_⟩, fun h => ?_⟩
  · rw [distanceOf_ofNat, routes_distance ht h]
  · by_cases hne : a = b
    · subst hne
      exact ⟨.nil, .nil, by simp, routeOf_self t a⟩
    · obtain ⟨s, hs, hadj, hreach, hdist⟩ := routes_step ht h hne
      obtain ⟨w, hw, honward⟩ := onward_routes ht hreach
      have hlength : (w.cons hadj).length = t.graph.dist a b := by
        rw [Walk.length_cons, hw, hdist]
      refine ⟨w.cons hadj, Walk.isPath_of_length_eq_dist _ hlength, hlength, ?_⟩
      rw [routeOf_ofNat t hne, hs, honward, Except.map, cons_stops]
      simp
  · rw [distanceOf_ofNat, routes_distance_apart ht h]

def ringAndPair : Topology where
  size := 6
  couplings := [(0, 2), (0, 5), (1, 3), (2, 4), (4, 5)]

theorem ringAndPair_exact :
    ringAndPair.WellFormed ∧
    (∃ a b : Fin ringAndPair.size, (a : Nat) = 0 ∧ (b : Nat) = 4 ∧ ringAndPair.graph.Reachable a b ∧
      ringAndPair.distanceOf (.ofNat a) (.ofNat b) = .ok (some (ringAndPair.graph.dist a b)) ∧
      ∃ w : ringAndPair.graph.Walk a b, w.IsPath ∧ w.length = ringAndPair.graph.dist a b ∧
        ringAndPair.routeOf (.ofNat a) (.ofNat b) =
          .ok (w.support.map fun q : Fin ringAndPair.size => ((q : Nat) : Int))) := by
  have hwf : ringAndPair.WellFormed := by simp [WellFormed, ringAndPair]
  have hfirst : ringAndPair.graph.Adj ⟨0, by decide⟩ ⟨2, by decide⟩ := by decide
  have hsecond : ringAndPair.graph.Adj ⟨2, by decide⟩ ⟨4, by decide⟩ := by decide
  have hreach := hfirst.reachable.trans hsecond.reachable
  exact ⟨hwf, _, _, rfl, rfl, hreach, (distanceOf_routeOf_exact hwf _ _).1 hreach⟩

lemma routes_step_apart (ht : t.WellFormed) (h : ¬ t.graph.Reachable i j) : t.routes.step i j = 1 :=
  (routes_spec ht).1.blank i j (routes_distance_apart ht h)

/-- From a qubit that is not joined to the goal, and with qubit 1 not joined to it either, no number of
steps leads there. -/
theorem follow_apart (ht : t.WellFormed) {one : Fin t.size} (hone : (one : Nat) = 1)
    (h : ¬ t.graph.Reachable one j) (hi : ¬ t.graph.Reachable i j) (fuel : Nat) :
    t.routes.follow fuel i j = none := by
  induction fuel generalizing i with
  | zero =>
    have hne : (i : Nat) ≠ j := fun e => hi (Fin.ext e ▸ .refl _)
    rw [follow, if_neg hne]
  | succ fuel ih =>
    have hne : (i : Nat) ≠ j := fun e => hi (Fin.ext e ▸ .refl _)
    rw [follow_succ _ hne, routes_step_apart ht hi, ← hone, ih h]
    rfl

lemma exists_qubit_one (h : ¬ t.graph.Reachable i j) : ∃ one : Fin t.size, (one : Nat) = 1 := by
  have hne : (i : Nat) ≠ j := fun e => h (Fin.ext e ▸ .refl _)
  exact ⟨⟨1, by omega⟩, rfl⟩

/-- The route between two qubits that are not joined goes to qubit 1 first, to which the start is not
coupled, and from there on a shortest path; if there is none, it never ends. -/
theorem routeOf_apart (ht : t.WellFormed) {a b : Fin t.size} (hab : ¬ t.graph.Reachable a b) :
    ∃ one : Fin t.size, (one : Nat) = 1 ∧
      (t.graph.Reachable one b → ¬ t.graph.Adj a one ∧
        ∃ w : t.graph.Walk one b, w.IsPath ∧ w.length = t.graph.dist one b ∧
          t.routeOf (.ofNat a) (.ofNat b) =
            .ok ((a :: w.support).map fun q : Fin t.size => ((q : Nat) : Int))) ∧
      (¬ t.graph.Reachable one b → (∀ fuel, t.routes.follow fuel a b = none) ∧
        t.routeOf (.ofNat a) (.ofNat b) = .error .endless) := by
  obtain ⟨one, hone⟩ := exists_qubit_one hab
  have hne : a ≠ b := by
    rintro rfl
    exact hab (.refl _)
  have hroute := routeOf_ofNat t hne
  rw [routes_step_apart ht hab, ← hone] at hroute
  refine ⟨one, hone, fun h => ⟨fun hadj => hab (hadj.reachable.trans h), ?_⟩, fun h =>
    ⟨follow_apart ht hone h hab, ?_⟩⟩
  · obtain ⟨w, hw, honward⟩ := onward_routes ht h
    refine ⟨w, Walk.isPath_of_length_eq_dist w hw, hw, ?_⟩
    rw [hroute, honward, Except.map, cons_stops]
    simp
  · rw [hroute, onward, (routes_spec ht).1.size, follow_apart ht hone h h]
    rfl

def apartFirst : Topology where
  size := 3
  couplings := [(1, 2)]

def apartSecond : Topology where
  size := 3
  couplings := [(0, 2)]

lemma apartFirst_apart {a b : Fin apartFirst.size} (h : apartFirst.routes.distance a b = none) :
    apartFirst.WellFormed ∧ ¬ apartFirst.graph.Reachable a b := by
  have hwf : apartFirst.WellFormed := by simp [WellFormed, apartFirst]
  exact ⟨hwf, fun hab => Option.some_ne_none _ ((routes_distance hwf hab).symm.trans h)⟩

theorem apartFirst_routeOf :
    apartFirst.WellFormed ∧
    ∃ a b one : Fin apartFirst.size, ¬ apartFirst.graph.Reachable a b ∧ (one : Nat) = 1 ∧
      ¬ apartFirst.graph.Adj a one ∧
      ∃ w : apartFirst.graph.Walk one b, w.IsPath ∧ w.length = apartFirst.graph.dist one b ∧
        apartFirst.routeOf (.ofNat a) (.ofNat b) =
          .ok ((a :: w.support).map fun q : Fin apartFirst.size => ((q : Nat) : Int)) := by
  obtain ⟨hwf, hapart⟩ := apartFirst_apart (a := ⟨0, by decide⟩) (b := ⟨2, by decide⟩) (by decide +kernel)
  obtain ⟨one, hone, hjoined, -⟩ := routeOf_apart hwf hapart
  obtain rfl : one = ⟨1, by decide⟩ := Fin.ext hone
  have hadj : apartFirst.graph.Adj ⟨1, by decide⟩ ⟨2, by decide⟩ := by decide
  exact ⟨hwf, _, _, _, hapart, hone, hjoined hadj.reachable⟩

/-- No route is refused: one goes over a step that is no coupling, another never ends. -/
theorem unjoined_not_refused :
    (∃ a b : Fin apartFirst.size, ¬ apartFirst.graph.Reachable a b ∧
      apartFirst.routeOf (.ofNat a) (.ofNat b) = .ok [0, 1] ∧ apartFirst.hasCoupling 0 1 = false) ∧
    ∃ a b : Fin apartSecond.size, ¬ apartSecond.graph.Reachable a b ∧
      ∀ fuel, apartSecond.routes.follow fuel a b = none := by
  constructor
  · obtain ⟨hwf, hapart⟩ := apartFirst_apart (a := ⟨0, by decide⟩) (b := ⟨1, by decide⟩)
      (by decide +kernel)
    have hroute := routeOf_ofNat apartFirst (i := ⟨0, by decide⟩) (j := ⟨1, by decide⟩) (by decide)
    have honward : apartFirst.routes.onward 1 1 = .ok [] := by rw [onward, follow_self]
    rw [routes_step_apart hwf hapart, honward] at hroute
    exact ⟨_, _, hapart, hroute, by decide⟩
  · have hwf : apartSecond.WellFormed := by simp [WellFormed, apartSecond]
    have hnone : apartSecond.routes.distance 1 0 = none := by decide +kernel
    have hapart : ¬ apartSecond.graph.Reachable ⟨1, by decide⟩ ⟨0, by decide⟩ := fun h =>
      Option.some_ne_none _ ((routes_distance hwf h).symm.trans hnone)
    exact ⟨_, _, hapart, follow_apart hwf rfl hapart hapart⟩

end Topology

end GadgetCircuits

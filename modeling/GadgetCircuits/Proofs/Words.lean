import GadgetCircuits.Text.Cut
import Mathlib.Data.List.Chain

/-!
Lines as words with spaces between them. Dropping the spaces around a separator joins the words that
meet there and keeps all others apart.
-/

open List

namespace GadgetCircuits.Text

variable {sep s t w : List Char} {c : Char} {before after : Bool}

lemma splitFrom_eq (sep acc s : List Char) (k : Nat) :
    splitFrom sep k acc s = (split sep (s.drop k)).modifyHead (acc.reverse ++ ·) := by
  induction s generalizing k acc with
  | nil => simp [splitFrom, split]
  | cons c s ih =>
    cases k with
    | succ k => simpa [splitFrom] using ih acc k
    | zero =>
      simp only [split, drop_zero, splitFrom]
      split_ifs with hpre
      · simp
      · rw [ih (c :: acc), ih [c], modifyHead_modifyHead]
        congr 1
        funext p
        simp

lemma split_ne_nil (sep s : List Char) : split sep s ≠ [] := by
  induction s with
  | nil => simp [split, splitFrom]
  | cons c s ih =>
    rw [split, splitFrom]
    split_ifs with hpre
    · simp
    · rw [splitFrom_eq]
      simpa using ih

lemma split_sep_append (hsep : sep ≠ []) (s : List Char) :
    split sep (sep ++ s) = [] :: split sep s := by
  obtain ⟨c, rest, rfl⟩ := exists_cons_of_ne_nil hsep
  have hpre : (c :: rest).isPrefixOf (c :: (rest ++ s)) := by
    rw [List.isPrefixOf_iff_prefix]
    exact ⟨s, rfl⟩
  rw [split, cons_append, splitFrom, if_pos hpre, splitFrom_eq]
  cases h : split (c :: rest) s with
  | nil => exact absurd h (split_ne_nil _ _)
  | cons p ps => simp [h]

lemma split_cons (h : ¬ sep <+: c :: s) :
    split sep (c :: s) = (split sep s).modifyHead (c :: ·) := by
  rw [split, splitFrom, if_neg (by rwa [List.isPrefixOf_iff_prefix]), splitFrom_eq]
  rfl

lemma split_singleton (c : Char) (s : List Char) : split [c] s = s.splitOn c := by
  induction s with
  | nil => rfl
  | cons d s ih =>
    by_cases h : d = c
    · rw [h, splitOn_cons_eq_if_modifyHead]
      have happend : split [c] ([c] ++ s) = _ := split_sep_append (by simp) s
      simpa [ih] using happend
    · rw [split_cons (by simpa using Ne.symm h), splitOn_cons_eq_if_modifyHead, ih]
      simp [h]

variable (hsep : sep ≠ [])
include hsep

/-- Before a text without its first character, a separator is found as such. -/
theorem not_prefix_of_head {c : Char} (hs : ∀ d ∈ sep.head?, d ∉ c :: s)
    (t : List Char) : ¬ sep <+: c :: t := by
  obtain ⟨d, rest, rfl⟩ := exists_cons_of_ne_nil hsep
  intro hpre
  rw [cons_prefix_cons] at hpre
  exact hs d rfl (hpre.1 ▸ mem_cons_self)

lemma split_append_sep (hs : ∀ c ∈ sep.head?, c ∉ s) (t : List Char) :
    split sep (s ++ (sep ++ t)) = s :: split sep t := by
  induction s with
  | nil => exact split_sep_append hsep t
  | cons c s ih =>
    have hnot := not_prefix_of_head hsep hs (s ++ (sep ++ t))
    rw [cons_append, split_cons hnot, ih fun d hd hmem => hs d hd (mem_cons_of_mem _ hmem)]
    rfl

lemma split_of_notMem (hs : ∀ c ∈ sep.head?, c ∉ s) : split sep s = [s] := by
  induction s with
  | nil => rfl
  | cons c s ih =>
    have hnot := not_prefix_of_head hsep hs s
    rw [split_cons hnot, ih fun d hd hmem => hs d hd (mem_cons_of_mem _ hmem)]
    rfl

lemma split_induction {motive : List Char → Prop} (nil : motive [])
    (found : ∀ s, motive s → motive (sep ++ s))
    (other : ∀ c s, ¬ sep <+: c :: s → motive s → motive (c :: s)) (s : List Char) : motive s := by
  induction h : s.length using Nat.strong_induction_on generalizing s with
  | _ n ih =>
    cases s with
    | nil => exact nil
    | cons c s =>
      by_cases hpre : sep <+: c :: s
      · obtain ⟨t, ht⟩ := hpre
        have hlength : t.length < n := by
          have hpos := length_pos_of_ne_nil hsep
          rw [← h, ← ht, length_append]
          omega
        rw [← ht]
        exact found t (ih _ hlength t rfl)
      · refine other c s hpre (ih _ ?_ s rfl)
        rw [← h, length_cons]
        omega

lemma join_split (s : List Char) : join sep (split sep s) = s := by
  induction s using split_induction hsep with
  | nil => rfl
  | found s ih =>
    rw [split_sep_append hsep, join, intercalate_cons_of_ne_nil (split_ne_nil _ _)]
    simpa [join] using ih
  | other c s hpre ih =>
    rw [split_cons hpre]
    cases h : split sep s with
    | nil => exact absurd h (split_ne_nil _ _)
    | cons p ps =>
      rw [h] at ih
      cases ps with
      | nil => simpa [join] using ih
      | cons q ps => simpa [join, intercalate_cons_cons] using ih

omit hsep

/-- The separators that are found in a text leave nothing behind the last one. -/
def endsAt (sep w : List Char) : Bool :=
  !w.isEmpty && (split sep w).getLast? == some []

@[simp]
lemma endsAt_nil : endsAt sep [] = false := rfl

lemma endsAt_sep_append (hsep : sep ≠ []) (w : List Char) :
    endsAt sep (sep ++ w) = (w.isEmpty || endsAt sep w) := by
  have hne : (sep ++ w).isEmpty = false := by simp [hsep]
  rw [endsAt, hne, split_sep_append hsep]
  cases w with
  | nil => rfl
  | cons c w =>
    cases h : split sep (c :: w) with
    | nil => exact absurd h (split_ne_nil _ _)
    | cons p ps => simp [endsAt, h]

lemma endsAt_cons (hsep : sep ≠ []) (h : ¬ sep <+: c :: w) :
    endsAt sep (c :: w) = endsAt sep w := by
  rw [endsAt, split_cons h]
  have hjoin := join_split hsep w
  cases hw : split sep w with
  | nil => exact absurd hw (split_ne_nil _ _)
  | cons p ps =>
    cases ps with
    | cons q qs =>
      have hne : w ≠ [] := by
        rintro rfl
        simp [split, splitFrom] at hw
      simp [endsAt, hw, hne]
    | nil =>
      have hp : p = w := by simpa [hw, join] using hjoin
      simp [endsAt, hw, hp]

lemma endsAt_suffix (hsep : sep ≠ []) (h : endsAt sep w) : sep <:+ w := by
  induction w using split_induction hsep with
  | nil => simp at h
  | found w ih =>
    rw [endsAt_sep_append hsep] at h
    grind
  | other c w hpre ih =>
    rw [endsAt_cons hsep hpre] at h
    exact (ih h).trans (suffix_cons _ _)

/-- The pieces without their spaces, put together again. `inner` pieces have a separator before. -/
def rejoin (before after : Bool) (sep : List Char) : Bool → List (List Char) → List Char
  | _, [] => []
  | inner, [p] => if after && inner then dropSpaces p else p
  | inner, p :: q :: ps =>
    let p := if after && inner then dropSpaces p else p
    (if before then dropSpacesRight p else p) ++ sep ++ rejoin before after sep true (q :: ps)

lemma join_mapIdx_eq_rejoin (k n : Nat) (ps : List (List Char)) (hn : n = k + ps.length) :
    join sep (ps.mapIdx fun i p =>
      let p := if after && i + k != 0 then dropSpaces p else p
      if before && i + k + 1 != n then dropSpacesRight p else p) =
    rejoin before after sep (k != 0) ps := by
  induction ps generalizing k with
  | nil => rfl
  | cons p ps ih =>
    cases ps with
    | nil => simp [join, rejoin, hn]
    | cons q ps =>
      have htail := ih (k + 1) (by simp only [hn, length_cons]; omega)
      have hlast : k + 1 ≠ n := by simp only [hn, length_cons]; omega
      have hshift : ∀ i, i + 1 + k = i + (k + 1) := fun i => by omega
      rw [mapIdx_cons, mapIdx_cons, join, intercalate_cons_cons, ← mapIdx_cons (f := fun i p =>
          let p := if after && i + 1 + k != 0 then dropSpaces p else p
          if before && i + 1 + k + 1 != n then dropSpacesRight p else p)]
      simp only [hshift]
      rw [join] at htail
      rw [htail]
      simp [rejoin, hlast]

/-- What dropping spaces does to a text that follows a separator (`inner`), or does not. -/
def squeezeFrom (before after : Bool) (sep : List Char) (inner : Bool) (s : List Char) : List Char :=
  rejoin before after sep inner (split sep s)

lemma squeeze_eq (s : List Char) :
    squeeze before after sep s = squeezeFrom before after sep false s := by
  exact join_mapIdx_eq_rejoin 0 _ (split sep s) (by simp)

lemma squeezeFrom_nil (inner : Bool) : squeezeFrom before after sep inner [] = [] := by
  simp [squeezeFrom, split, splitFrom, rejoin, dropSpaces]

lemma squeezeFrom_sep_append (hsep : sep ≠ []) (inner : Bool) (s : List Char) :
    squeezeFrom before after sep inner (sep ++ s) = sep ++ squeezeFrom before after sep true s := by
  rw [squeezeFrom, split_sep_append hsep]
  cases h : split sep s with
  | nil => exact absurd h (split_ne_nil _ _)
  | cons p ps => simp [squeezeFrom, h, rejoin, dropSpaces, dropSpacesRight]

lemma dropSpaces_cons (hc : c ≠ ' ') : dropSpaces (c :: s) = c :: s := by
  simp [dropSpaces, hc]

lemma dropSpacesRight_append_cons (hc : c ≠ ' ') (s t : List Char) :
    dropSpacesRight (s ++ c :: t) = s ++ c :: dropSpacesRight t := by
  have hreverse : (s ++ c :: t).reverse = t.reverse ++ c :: s.reverse := by simp
  rw [dropSpacesRight, dropSpaces, hreverse, dropWhile_append]
  split_ifs with hempty
  · rw [dropSpacesRight, dropSpaces, List.isEmpty_iff.mp hempty]
    simp [hc]
  · simp [dropSpacesRight, dropSpaces]

lemma squeezeFrom_cons (hc : c ≠ ' ') (h : ¬ sep <+: c :: s) (inner : Bool) :
    squeezeFrom before after sep inner (c :: s) = c :: squeezeFrom before after sep false s := by
  rw [squeezeFrom, split_cons h]
  cases hs : split sep s with
  | nil => exact absurd hs (split_ne_nil _ _)
  | cons p ps =>
    have hright : dropSpacesRight (c :: p) = c :: dropSpacesRight p :=
      dropSpacesRight_append_cons hc [] p
    cases ps with
    | nil => simp [squeezeFrom, hs, rejoin, dropSpaces_cons hc]
    | cons q ps => cases before <;> simp [squeezeFrom, hs, rejoin, dropSpaces_cons hc, hright]

/-- A text that begins with a character other than a space. -/
def Solid (s : List Char) : Prop :=
  ∃ c ∈ s.head?, c ≠ ' '

lemma not_prefix_space (hsep : sep ≠ []) (hspace : ' ' ∉ sep) (s : List Char) :
    ¬ sep <+: ' ' :: s := by
  obtain ⟨d, rest, rfl⟩ := exists_cons_of_ne_nil hsep
  intro hpre
  rw [cons_prefix_cons] at hpre
  exact hspace (hpre.1 ▸ mem_cons_self)

lemma split_spaces_append (hsep : sep ≠ []) (hspace : ' ' ∉ sep) (k : Nat) (s : List Char) :
    split sep (replicate k ' ' ++ s) =
      (split sep s).modifyHead (replicate k ' ' ++ ·) := by
  induction k with
  | zero => cases h : split sep s <;> simp [h]
  | succ k ih =>
    rw [replicate_succ, cons_append, split_cons (not_prefix_space hsep hspace _), ih,
      modifyHead_modifyHead]
    rfl

lemma dropSpaces_spaces_append (k : Nat) (s : List Char) :
    dropSpaces (replicate k ' ' ++ s) = dropSpaces s := by
  simp [dropSpaces]

lemma rejoin_spaces (inner : Bool) (k : Nat) (p : List Char) (ps : List (List Char)) :
    rejoin before after sep inner (replicate k ' ' :: p :: ps) =
      if after && inner || before then sep ++ rejoin before after sep true (p :: ps)
      else replicate k ' ' ++ (sep ++ rejoin before after sep true (p :: ps)) := by
  cases hdrop : after && inner <;> cases before <;>
    simp [rejoin, hdrop, dropSpaces, dropSpacesRight]

lemma rejoin_spaces_cons (hc : c ≠ ' ') (inner : Bool) (k : Nat) (p : List Char)
    (ps : List (List Char)) :
    rejoin before after sep inner ((replicate k ' ' ++ c :: p) :: ps) =
      if after && inner then rejoin before after sep false ((c :: p) :: ps)
      else replicate k ' ' ++ rejoin before after sep false ((c :: p) :: ps) := by
  have hright := fun s => dropSpacesRight_append_cons hc s p
  have hright' : dropSpacesRight (c :: p) = c :: dropSpacesRight p := hright []
  cases ps <;> cases hdrop : after && inner <;> cases before <;>
    simp [rejoin, hdrop, dropSpaces_spaces_append, dropSpaces_cons hc, hright, hright']

lemma squeezeFrom_spaces_append (hsep : sep ≠ []) (hspace : ' ' ∉ sep) (hs : Solid s) (inner : Bool)
    (k : Nat) :
    squeezeFrom before after sep inner (replicate k ' ' ++ s) =
      if after && inner || before && sep.isPrefixOf s then squeezeFrom before after sep false s
      else replicate k ' ' ++ squeezeFrom before after sep false s := by
  rw [squeezeFrom, split_spaces_append hsep hspace]
  by_cases hpre : sep <+: s
  · rw [List.isPrefixOf_iff_prefix.mpr hpre, Bool.and_true]
    obtain ⟨t, rfl⟩ := hpre
    rw [squeezeFrom_sep_append hsep, split_sep_append hsep, squeezeFrom]
    cases h : split sep t with
    | nil => exact absurd h (split_ne_nil _ _)
    | cons p ps =>
      rw [modifyHead_cons, append_nil]
      exact rejoin_spaces inner k p ps
  · obtain ⟨c, hhead, hc⟩ := hs
    obtain ⟨t, rfl⟩ : ∃ t, s = c :: t := ⟨s.tail, eq_cons_of_mem_head? hhead⟩
    have hfalse : sep.isPrefixOf (c :: t) = false := by
      simpa [← isPrefixOf_iff_prefix] using hpre
    rw [hfalse, Bool.and_false, Bool.or_false, squeezeFrom, split_cons hpre]
    cases h : split sep t with
    | nil => exact absurd h (split_ne_nil _ _)
    | cons p ps => exact rejoin_spaces_cons hc inner k p ps

/-- A text that is empty or begins with a space. -/
def Parted (t : List Char) : Prop :=
  ∀ c ∈ t.head?, c = ' '

lemma prefix_append_cases (h : s <+: w ++ t) : s <+: w ∨ ∃ r, s = w ++ r ∧ r <+: t := by
  rcases prefix_or_prefix_of_prefix h (prefix_append w t) with hw | ⟨r, rfl⟩
  · exact .inl hw
  · exact .inr ⟨r, rfl, (prefix_append_right_inj w).mp h⟩

lemma suffix_append_cases (h : s <:+ w ++ t) : s <:+ t ∨ ∃ r, s = r ++ t ∧ r <:+ w := by
  rcases suffix_or_suffix_of_suffix h (suffix_append w t) with ht | ⟨r, rfl⟩
  · exact .inl ht
  · obtain ⟨v, hv⟩ := h
    rw [← append_assoc] at hv
    exact .inr ⟨r, rfl, v, append_cancel_right hv⟩

lemma prefix_of_prefix_append (ht : ∀ c ∈ t.head?, c ∉ sep) (h : sep <+: w ++ t) : sep <+: w := by
  rcases prefix_append_cases h with hw | ⟨r, rfl, t', rfl⟩
  · exact hw
  · cases r with
    | nil => simp
    | cons c r => exact absurd (mem_append_right w mem_cons_self) (ht c rfl)

lemma Parted.notMem (ht : Parted t) (hspace : ' ' ∉ sep) : ∀ c ∈ t.head?, c ∉ sep :=
  fun c hc => ht c hc ▸ hspace

/-- A word stays as it is, and says whether what follows comes after a separator. -/
theorem squeezeFrom_word_append (hsep : sep ≠ []) (hspace : ' ' ∉ sep) (hw : ' ' ∉ w) (ht : Parted t)
    (inner : Bool) :
    squeezeFrom before after sep inner (w ++ t) =
      w ++ squeezeFrom before after sep (if w.isEmpty then inner else endsAt sep w) t := by
  induction w using split_induction hsep generalizing inner with
  | nil => rfl
  | found w ih =>
    have hw' : ' ' ∉ w := fun hmem => hw (mem_append_right _ hmem)
    have hne : (sep ++ w).isEmpty = false := by simp [hsep]
    rw [append_assoc, squeezeFrom_sep_append hsep, ih hw', hne, endsAt_sep_append hsep,
      append_assoc]
    cases w <;> simp
  | other c w hpre ih =>
    have hw' : ' ' ∉ w := fun hmem => hw (mem_cons_of_mem _ hmem)
    have hc : c ≠ ' ' := fun heq => hw (heq ▸ mem_cons_self)
    have hpre' : ¬ sep <+: c :: (w ++ t) := fun h =>
      hpre (prefix_of_prefix_append (w := c :: w) (ht.notMem hspace) h)
    rw [cons_append, squeezeFrom_cons hc hpre', ih hw', endsAt_cons hsep hpre]
    cases w <;> simp

lemma squeeze_of_no_space (hsep : sep ≠ []) (hspace : ' ' ∉ sep) (hw : ' ' ∉ w) :
    squeeze before after sep w = w := by
  have hparted : Parted [] := by simp [Parted]
  conv_lhs => rw [squeeze_eq, ← append_nil w]
  rw [squeezeFrom_word_append hsep hspace hw hparted, squeezeFrom_nil, append_nil]

structure Word (w : List Char) : Prop where
  ne_nil : w ≠ []
  no_space : ' ' ∉ w

/-- A text consists of words with one or more spaces between them. -/
inductive Spells : List (List Char) → List Char → Prop
  | last {w : List Char} : Word w → Spells [w] w
  | cons {w s : List Char} {ws : List (List Char)} (k : Nat) : Word w → Spells ws s →
      Spells (w :: ws) (w ++ (List.replicate (k + 1) ' ' ++ s))

def merge (g : List Char → List Char → Bool) : List (List Char) → List (List Char)
  | [] => []
  | [w] => [w]
  | w :: v :: ws =>
    if g w v then (merge g (v :: ws)).modifyHead (w ++ ·) else w :: merge g (v :: ws)

/-- Spaces that are dropped around a mark, before it, after it or on both sides. -/
structure Separator where
  before : Bool
  after : Bool
  mark : List Char
  ne_nil : mark ≠ []
  no_space : ' ' ∉ mark

namespace Separator

def drop (p : Separator) (s : List Char) : List Char :=
  squeeze p.before p.after p.mark s

/-- Words between which there is no space left. -/
def glues (p : Separator) (w v : List Char) : Bool :=
  p.after && endsAt p.mark w || p.before && p.mark.isPrefixOf v

lemma glues_eq_false_iff (p : Separator) (w v : List Char) : p.glues w v = false ↔
      (p.after → endsAt p.mark w = false) ∧ (p.before → ¬ p.mark <+: v) := by
  rw [glues, Bool.or_eq_false_iff, Bool.and_eq_false_imp, Bool.and_eq_false_imp,
    ← isPrefixOf_iff_prefix, Bool.not_eq_true]

end Separator

lemma Word.solid (hw : Word w) : Solid (w ++ t) := by
  obtain ⟨c, rest, rfl⟩ := exists_cons_of_ne_nil hw.ne_nil
  exact ⟨c, rfl, fun heq => hw.no_space (heq ▸ mem_cons_self)⟩

lemma collapse_word_append (hw : ' ' ∉ w) (t : List Char) : collapse (w ++ t) = w ++ collapse t := by
  induction w with
  | nil => rfl
  | cons c w ih =>
    have hc : (c == ' ') = false := by
      rw [beq_eq_false_iff_ne]
      exact fun heq => hw (heq ▸ mem_cons_self)
    have htail := ih fun hmem => hw (mem_cons_of_mem _ hmem)
    simp [collapse, hc, htail]

lemma collapse_spaces_append (hs : Solid s) (k : Nat) :
    collapse (replicate (k + 1) ' ' ++ s) = ' ' :: collapse s := by
  induction k with
  | zero =>
    obtain ⟨c, hhead, hc⟩ := hs
    obtain ⟨t, rfl⟩ : ∃ t, s = c :: t := ⟨s.tail, eq_cons_of_mem_head? hhead⟩
    rw [replicate_one, singleton_append, collapse]
    simp [hc]
  | succ k ih =>
    rw [replicate_succ, cons_append, ← ih]
    simp [collapse, replicate_succ]

namespace Spells

variable {ws : List (List Char)} {u : List Char}

lemma solid (h : Spells ws s) : Solid s := by
  cases h with
  | last hw => simpa using hw.solid (t := [])
  | cons k hw h => exact hw.solid

lemma ne_nil (h : Spells ws s) : ws ≠ [] := by
  cases h <;> simp

lemma append_left (hu : ' ' ∉ u) (h : Spells ws s) : Spells (ws.modifyHead (u ++ ·)) (u ++ s) := by
  have hword : ∀ {w}, Word w → Word (u ++ w) := fun hw =>
    ⟨by simp [hw.ne_nil], by simp [hu, hw.no_space]⟩
  cases h with
  | last hw => exact .last (hword hw)
  | cons k hw h =>
    rw [← append_assoc]
    exact .cons k (hword hw) h

lemma isPrefixOf_eq {p : Separator} (h : Spells (w :: ws) s) :
    p.mark.isPrefixOf s = p.mark.isPrefixOf w := by
  cases h with
  | last hw => rfl
  | @cons _ s _ k hw h =>
    have hparted : Parted (replicate (k + 1) ' ' ++ s) := by simp [Parted, replicate_succ]
    rw [Bool.eq_iff_iff, isPrefixOf_iff_prefix, isPrefixOf_iff_prefix]
    exact ⟨prefix_of_prefix_append (hparted.notMem p.no_space),
      fun h => h.trans (prefix_append _ _)⟩

lemma drop_cons (p : Separator) (hw : Word w) (h : Spells ws s) (k : Nat) :
    p.drop (w ++ (replicate (k + 1) ' ' ++ s)) =
      if p.after && endsAt p.mark w || p.before && p.mark.isPrefixOf s then w ++ p.drop s
      else w ++ (replicate (k + 1) ' ' ++ p.drop s) := by
  have hparted : Parted (replicate (k + 1) ' ' ++ s) := by simp [Parted, replicate_succ]
  have hne : w.isEmpty = false := by simp [hw.ne_nil]
  rw [Separator.drop, squeeze_eq, squeezeFrom_word_append p.ne_nil p.no_space hw.no_space hparted, hne,
    squeezeFrom_spaces_append p.ne_nil p.no_space h.solid, Separator.drop, squeeze_eq,
    if_neg Bool.false_ne_true]
  exact apply_ite (w ++ ·) _ _ _

/-- Dropping the spaces around a mark puts together the words that meet there. -/
theorem drop (p : Separator) (h : Spells ws s) : Spells (merge p.glues ws) (p.drop s) := by
  induction h with
  | @last w hw =>
    rw [Separator.drop, squeeze_of_no_space p.ne_nil p.no_space hw.no_space]
    exact .last hw
  | @cons w s ws k hw h ih =>
    rw [drop_cons p hw h k]
    cases ws with
    | nil => cases h
    | cons v ws =>
      rw [h.isPrefixOf_eq, merge, Separator.glues]
      split_ifs
      · exact ih.append_left hw.no_space
      · exact ih.cons k hw

variable (h : Spells ws s)
include h

lemma collapse_eq : collapse s = join [' '] ws := by
  induction h with
  | last hw => simpa [join, collapse] using collapse_word_append hw.no_space []
  | @cons w s ws k hw h ih =>
    rw [collapse_word_append hw.no_space, collapse_spaces_append h.solid, ih, join, join,
      intercalate_cons_of_ne_nil h.ne_nil]
    simp

lemma word : ∀ w ∈ ws, Word w := by
  induction h with
  | last hw => simpa using hw
  | cons k hw h ih => simpa using ⟨hw, ih⟩

lemma flatten_subset : ws.flatten ⊆ s := by
  induction h with
  | last hw => simp
  | @cons w s ws k hw h ih =>
    simp_all

lemma head?_flatten : ws.flatten.head? = s.head? := by
  cases h with
  | last hw => simp
  | cons k hw h => simp [head?_append_of_ne_nil _ hw.ne_nil]

lemma getLast?_flatten : ws.flatten.getLast? = s.getLast? := by
  induction h with
  | last hw => simp
  | @cons w s ws k hw h ih =>
    have hs : s ≠ [] := by
      obtain ⟨c, hc, -⟩ := h.solid
      rintro rfl
      simp at hc
    have hws : ws.flatten ≠ [] := by
      intro hnil
      rw [hnil, getLast?_nil, eq_comm, getLast?_eq_none_iff] at ih
      exact hs ih
    rw [flatten_cons, getLast?_append_of_ne_nil _ hws, ih, ← append_assoc,
      getLast?_append_of_ne_nil _ hs]

omit h

lemma of_words (hne : ws ≠ []) (h : ∀ w ∈ ws, Word w) : Spells ws (join [' '] ws) := by
  induction ws with
  | nil => exact absurd rfl hne
  | cons w ws ih =>
    cases ws with
    | nil => simpa [join] using Spells.last (h w (by simp))
    | cons v ws =>
      have htail := ih (by simp) fun u hu => h u (mem_cons_of_mem _ hu)
      rw [join, intercalate_cons_cons, append_assoc]
      exact .cons 0 (h w (by simp)) htail

lemma exists_of_getLast (hs : ∃ c ∈ s.getLast?, c ≠ ' ') :
    ∃ k t ws, s = replicate k ' ' ++ t ∧ Spells ws t := by
  induction s with
  | nil => simp at hs
  | cons c s ih =>
    have hword : c ≠ ' ' → Word [c] := fun hc => ⟨by simp, by simpa using Ne.symm hc⟩
    cases s with
    | nil =>
      have hc : c ≠ ' ' := by simpa using hs
      exact ⟨0, [c], [[c]], rfl, .last (hword hc)⟩
    | cons d s =>
      obtain ⟨k, t, ws, heq, ht⟩ := ih (by simpa using hs)
      by_cases hc : c = ' '
      · exact ⟨k + 1, t, ws, by rw [heq, hc, replicate_succ, cons_append], ht⟩
      · cases k with
        | zero =>
          refine ⟨0, c :: t, _, by simpa using heq, ht.append_left (u := [c]) ?_⟩
          exact (hword hc).no_space
        | succ k =>
          refine ⟨0, c :: (replicate (k + 1) ' ' ++ t), [c] :: ws, by simpa using heq, ?_⟩
          exact .cons k (hword hc) ht

lemma exists_of_solid (hs : Solid s) (hend : ∃ c ∈ s.getLast?, c ≠ ' ') : ∃ ws, Spells ws s := by
  obtain ⟨k, t, ws, rfl, ht⟩ := exists_of_getLast hend
  cases k with
  | zero => exact ⟨ws, by simpa using ht⟩
  | succ k => simp [Solid, replicate_succ] at hs

end Spells

section Merge

variable {g : List Char → List Char → Bool} {ws : List (List Char)}
variable {R : List Char → List Char → Prop}

lemma merge_eq_self (h : ws.IsChain fun w v => g w v = false) : merge g ws = ws := by
  induction ws with
  | nil => rfl
  | cons w ws ih =>
    cases ws with
    | nil => rfl
    | cons v ws =>
      rw [isChain_cons_cons] at h
      rw [merge, h.1, ih h.2]
      rfl

lemma merge_ne_nil (w : List Char) (ws : List (List Char)) : merge g (w :: ws) ≠ [] := by
  cases ws with
  | nil => simp [merge]
  | cons v ws =>
    rw [merge]
    split_ifs
    · simpa using merge_ne_nil v ws
    · simp

lemma length_merge_le (ws : List (List Char)) : (merge g ws).length ≤ ws.length := by
  induction ws with
  | nil => rfl
  | cons w ws ih =>
    cases ws with
    | nil => rfl
    | cons v ws =>
      rw [merge]
      grind

lemma length_merge_lt (h : ¬ ws.IsChain fun w v => g w v = false) :
    (merge g ws).length < ws.length := by
  induction ws with
  | nil => simp at h
  | cons w ws ih =>
    cases ws with
    | nil => simp at h
    | cons v ws =>
      have hle := length_merge_le (g := g) (v :: ws)
      rw [merge]
      grind

lemma merge_append {vs : List (List Char)}
    (h : ∀ w ∈ ws.getLast?, ∀ v ∈ vs.head?, g w v = false) :
    merge g (ws ++ vs) = merge g ws ++ merge g vs := by
  induction ws with
  | nil => simp [merge]
  | cons w ws ih =>
    cases ws with
    | nil =>
      cases vs with
      | nil => simp [merge]
      | cons v vs => simp [merge, h w (by simp) v (by simp)]
    | cons u ws =>
      have htail := ih (by simpa using h)
      obtain ⟨x, xs, hx⟩ := exists_cons_of_ne_nil (merge_ne_nil (g := g) u ws)
      rw [cons_append, cons_append, merge, merge, ← cons_append, htail, hx]
      split_ifs <;> simp

/-- Words that are put together, where the second one may have been continued. -/
def Joined (g : List Char → List Char → Bool) (w v : List Char) : Prop :=
  ∃ u, u ≠ [] ∧ u <+: v ∧ g w u = true

lemma prefix_of_mem_merge_head (w : List Char) (ws : List (List Char)) :
    ∀ v ∈ (merge g (w :: ws)).head?, w <+: v := by
  cases ws with
  | nil => simp [merge]
  | cons u ws =>
    obtain ⟨x, xs, hx⟩ := exists_cons_of_ne_nil (merge_ne_nil (g := g) u ws)
    rw [merge, hx]
    split_ifs <;> simp

lemma rel_merge_head {u v : List Char} (hne : ∀ w ∈ v :: ws, w ≠ [])
    (hright : ∀ u w v, w ≠ [] → Joined g w v → R u w → R u (w ++ v)) (h : R u v) :
    ∀ x ∈ (merge g (v :: ws)).head?, R u x := by
  cases ws with
  | nil => simpa [merge] using h
  | cons w ws =>
    obtain ⟨x, xs, hx⟩ := exists_cons_of_ne_nil (merge_ne_nil (g := g) w ws)
    have hpre : w <+: x := prefix_of_mem_merge_head (g := g) w ws x (by simp [hx])
    rw [merge, hx]
    split_ifs with hg
    · simpa using hright u v x (hne v (by simp)) ⟨w, hne w (by simp), hpre, hg⟩ h
    · simpa using h

/-- A relation between neighbours that holds where words are not put together, and that does not see
the seams inside of words, holds of all neighbours afterwards. -/
theorem isChain_merge (hne : ∀ w ∈ ws, w ≠ [])
    (hleft : ∀ w v u, Joined g w v → R v u → R (w ++ v) u)
    (hright : ∀ u w v, w ≠ [] → Joined g w v → R u w → R u (w ++ v))
    (h : ws.IsChain fun w v => g w v = false → R w v) : (merge g ws).IsChain R := by
  induction ws with
  | nil => simp [merge]
  | cons w ws ih =>
    cases ws with
    | nil => simp [merge]
    | cons v ws =>
      rw [isChain_cons_cons] at h
      have htail := ih (fun u hu => hne u (mem_cons_of_mem _ hu)) h.2
      obtain ⟨x, xs, hx⟩ := exists_cons_of_ne_nil (merge_ne_nil (g := g) v ws)
      have hpre : v <+: x := prefix_of_mem_merge_head (g := g) v ws x (by simp [hx])
      rw [merge]
      rw [hx] at htail ⊢
      split_ifs with hg
      · rw [modifyHead_cons]
        cases xs with
        | nil => simp
        | cons y ys =>
          rw [isChain_cons_cons] at htail ⊢
          exact ⟨hleft w x y ⟨v, hne v (by simp), hpre, hg⟩ htail.1, htail.2⟩
      · rw [isChain_cons_cons]
        have hhead := rel_merge_head (fun u hu => hne u (mem_cons_of_mem _ hu)) hright
          (h.1 (by simpa using hg)) x
        exact ⟨hhead (by simp [hx]), htail⟩

end Merge

end GadgetCircuits.Text

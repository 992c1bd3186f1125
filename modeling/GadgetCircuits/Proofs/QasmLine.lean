import GadgetCircuits.Proofs.Words
import GadgetCircuits.Qasm.Reader

/-!
Tidied lines. A tidied line is a list of words with single spaces, which arises from the words of the
line by joining some of them. Neighbours meet at none of the separators, with one exception: joining
at `==` can make a new `==`.
-/

open List hiding merge

namespace GadgetCircuits.Text

variable {s t : List Char}

lemma isBlank_space : isBlank ' ' := by decide

lemma trimRight_isPrefix (s : List Char) : trimRight s <+: s := by
  rw [trimRight, ← reverse_suffix, reverse_reverse]
  exact dropWhile_suffix _

lemma trim_head {c : Char} (h : c ∈ (trim s).head?) : isBlank c = false := by
  obtain ⟨t, ht⟩ := trimRight_isPrefix (trimLeft s)
  have hhead : c ∈ (trimLeft s).head? := by
    rw [← ht, head?_append]
    simpa [trim] using Or.inl h
  have hnot := head?_dropWhile_not isBlank s
  rw [trimLeft, Option.mem_def] at hhead
  simpa [hhead] using hnot

lemma trim_getLast {c : Char} (h : c ∈ (trim s).getLast?) : isBlank c = false := by
  have hnot := head?_dropWhile_not isBlank (trimLeft s).reverse
  rw [trim, trimRight, getLast?_reverse, Option.mem_def] at h
  simpa [h] using hnot

lemma trim_eq_self (hhead : ∀ c ∈ s.head?, isBlank c = false)
    (hlast : ∀ c ∈ s.getLast?, isBlank c = false) : trim s = s := by
  have hkeep : ∀ t : List Char, (∀ c ∈ t.head?, isBlank c = false) → t.dropWhile isBlank = t := by
    intro t ht
    cases t with
    | nil => rfl
    | cons c t => simp [ht c rfl]
  rw [trim, trimLeft, hkeep s hhead, trimRight, hkeep s.reverse (by simpa using hlast),
    reverse_reverse]

@[simp]
lemma after?_eq_some {start : List Char} : after? start s = some t ↔ s = start ++ t := by
  rw [after?]
  split_ifs with h
  · obtain ⟨r, rfl⟩ := List.isPrefixOf_iff_prefix.mp h
    simp [eq_comm]
  · rw [List.isPrefixOf_iff_prefix] at h
    simp only [false_iff]
    rintro rfl
    exact h (prefix_append _ _)

lemma after?_eq_none {start : List Char} : after? start s = none ↔ ¬ start <+: s := by
  simp [after?, ← isPrefixOf_iff_prefix]

@[simp]
lemma before?_eq_some {ending : List Char} : before? ending s = some t ↔ s = t ++ ending := by
  simp only [before?, Option.map_eq_some_iff, after?_eq_some]
  constructor
  · rintro ⟨r, hr, rfl⟩
    simpa using congrArg List.reverse hr
  · rintro rfl
    exact ⟨t.reverse, by simp, by simp⟩

@[simp]
lemma nonempty?_eq_some : nonempty? s = some t ↔ s = t ∧ t ≠ [] := by
  cases s <;> simp +contextual [nonempty?, eq_comm]

lemma head?_eq_of_isPrefix (h : s <+: t) (hs : s ≠ []) : s.head? = t.head? := by
  obtain ⟨r, rfl⟩ := h
  rw [head?_append_of_ne_nil _ hs]

lemma getLast?_of_suffix (h : s <:+ t) (hs : s ≠ []) : s.getLast? = t.getLast? := by
  obtain ⟨r, rfl⟩ := h
  rw [getLast?_append_of_ne_nil _ hs]

namespace Separator

variable {p q : Separator} {u v w : List Char} {ws : List (List Char)}

/-- A mark whose first character does not come again. -/
def Simple (p : Separator) : Prop :=
  ∀ c ∈ p.mark.head?, c ∉ p.mark.tail

lemma Simple.endsAt_iff (hp : p.Simple) (w : List Char) : endsAt p.mark w ↔ p.mark <:+ w := by
  refine ⟨endsAt_suffix p.ne_nil, fun h => ?_⟩
  induction w using split_induction p.ne_nil with
  | nil => exact absurd (suffix_nil.mp h) p.ne_nil
  | found w ih =>
    rw [endsAt_sep_append p.ne_nil]
    cases w with
    | nil => rfl
    | cons c w =>
      rcases suffix_append_cases h with hw | ⟨r, hr, hsuffix⟩
      · simp [ih hw]
      · -- The mark would begin a second time in its own tail.
        cases r with
        | nil => simp [ih ⟨[], hr⟩]
        | cons d r =>
          exfalso
          refine hp d (by simp [hr]) ?_
          rw [hr, cons_append] at hsuffix
          rcases suffix_cons_iff.mp hsuffix with heq | htail
          · simp at heq
          · rw [hr]
            exact htail.subset mem_cons_self
  | other c w hpre ih =>
    rw [endsAt_cons p.ne_nil hpre]
    apply ih
    rcases suffix_cons_iff.mp h with heq | hw
    · exact absurd ⟨[], by rw [heq, append_nil]⟩ hpre
    · exact hw

/-- Joining words at a mark makes no new mark of another kind across the seam. -/
def Keeps (p q : Separator) : Prop :=
  ∀ x y, p.mark = x ++ y → x ≠ [] → y ≠ [] →
    q.mark.getLast? ≠ x.getLast? ∧ q.mark.head? ≠ y.head?

lemma Keeps.not_joined (hkeep : p.Keeps q) {x y : List Char} (hmark : p.mark = x ++ y) (hx : x ≠ [])
    (hy : y ≠ []) (hxw : x <:+ w) (hyv : y <+: v) : ¬ Joined q.glues w v := by
  rintro ⟨u, hu, huv, hg⟩
  obtain ⟨hlast, hhead⟩ := hkeep x y hmark hx hy
  rw [glues, Bool.or_eq_true, Bool.and_eq_true, Bool.and_eq_true, isPrefixOf_iff_prefix] at hg
  rcases hg with ⟨-, hend⟩ | ⟨-, hstart⟩
  · have hsuffix := endsAt_suffix q.ne_nil hend
    exact hlast ((getLast?_of_suffix hsuffix q.ne_nil).trans (getLast?_of_suffix hxw hx).symm)
  · have hq := head?_eq_of_isPrefix (hstart.trans huv) q.ne_nil
    exact hhead (hq.trans (head?_eq_of_isPrefix hyv hy).symm)

lemma Keeps.glues_append_left (hp : p.Simple) (hkeep : p.Keeps q) (hjoin : Joined q.glues w v)
    (h : p.glues v u = false) : p.glues (w ++ v) u = false := by
  rw [glues_eq_false_iff] at h ⊢
  refine ⟨fun hafter => ?_, h.2⟩
  have hv := h.1 hafter
  rw [← Bool.not_eq_true, hp.endsAt_iff] at hv ⊢
  intro hsuffix
  rcases suffix_append_cases hsuffix with hmark | ⟨r, hmark, hr⟩
  · exact hv hmark
  · have hne : v ≠ [] := by
      obtain ⟨x, hx, hpre, -⟩ := hjoin
      rintro rfl
      exact hx (prefix_nil.mp hpre)
    cases r with
    | nil => exact hv ⟨[], hmark⟩
    | cons c r => exact hkeep.not_joined hmark (by simp) hne hr (prefix_refl v) hjoin

lemma Keeps.glues_append_right (hkeep : p.Keeps q) (hw : w ≠ []) (hjoin : Joined q.glues w v)
    (h : p.glues u w = false) : p.glues u (w ++ v) = false := by
  rw [glues_eq_false_iff] at h ⊢
  refine ⟨h.1, fun hbefore hpre => ?_⟩
  rcases prefix_append_cases hpre with hmark | ⟨r, hmark, hr⟩
  · exact h.2 hbefore hmark
  · cases r with
    | nil => exact h.2 hbefore ⟨[], by rw [hmark, append_nil, append_nil]⟩
    | cons c r => exact hkeep.not_joined hmark hw (by simp) (suffix_refl w) hr hjoin

lemma Keeps.isChain_merge (hp : p.Simple) (hkeep : p.Keeps q) (hne : ∀ w ∈ ws, w ≠ [])
    (h : ws.IsChain fun w v => q.glues w v = false → p.glues w v = false) :
    (merge q.glues ws).IsChain fun w v => p.glues w v = false :=
  Text.isChain_merge hne (fun _ _ _ hjoin h => hkeep.glues_append_left hp hjoin h)
    (fun _ _ _ hw hjoin h => hkeep.glues_append_right hw hjoin h) h

lemma keeps_of_length_eq_one (h : p.mark.length = 1) (q : Separator) : p.Keeps q := by
  intro x y hmark hx hy
  have hlength := congrArg List.length hmark
  have hx' := length_pos_of_ne_nil hx
  have hy' := length_pos_of_ne_nil hy
  rw [length_append] at hlength
  omega

end Separator

lemma flatten_merge (g : List Char → List Char → Bool) (ws : List (List Char)) :
    (merge g ws).flatten = ws.flatten := by
  induction ws with
  | nil => rfl
  | cons w ws ih =>
    cases ws with
    | nil => rfl
    | cons v ws =>
      rw [merge]
      split_ifs
      · obtain ⟨x, xs, hx⟩ := exists_cons_of_ne_nil (merge_ne_nil (g := g) v ws)
        rw [hx] at ih ⊢
        simpa using ih
      · simpa using ih

end GadgetCircuits.Text

namespace GadgetCircuits.Qasm

open Text

variable {ws : List (List Char)} {s line : List Char} (ps : List Separator) {vs : List (List Char)}

def comma : Separator := ⟨true, true, [','], by decide, by decide⟩

def equals : Separator := ⟨true, true, ['=', '='], by decide, by decide⟩

def arrow : Separator := ⟨true, true, ['-', '>'], by decide, by decide⟩

def brackets : List Separator :=
  [⟨false, true, ['('], by decide, by decide⟩, ⟨true, false, [')'], by decide, by decide⟩,
    ⟨false, true, ['['], by decide, by decide⟩, ⟨true, false, [']'], by decide, by decide⟩]

def separators : List Separator :=
  comma :: equals :: arrow :: brackets

lemma tidied_eq (line : List Char) :
    tidied line = collapse (separators.foldl (fun l p => p.drop l) (trim line)) := by
  simp [tidied, separators, brackets, comma, equals, arrow, Separator.drop]

def merged (ps : List Separator) (ws : List (List Char)) : List (List Char) :=
  ps.foldl (fun ws p => merge p.glues ws) ws

lemma spells_merged (h : Spells ws s) :
    Spells (merged ps ws) (ps.foldl (fun l p => p.drop l) s) := by
  induction ps generalizing ws s with
  | nil => exact h
  | cons p ps ih => exact ih (h.drop p)

lemma flatten_merged (ws : List (List Char)) : (merged ps ws).flatten = ws.flatten := by
  induction ps generalizing ws with
  | nil => rfl
  | cons p ps ih => exact (ih _).trans (flatten_merge _ _)

lemma length_merged_le (ws : List (List Char)) : (merged ps ws).length ≤ ws.length := by
  induction ps generalizing ws with
  | nil => rfl
  | cons p ps ih => exact (ih _).trans (length_merge_le ws)

lemma tidied_of_spells (h : Spells ws (trim line)) :
    tidied line = join [' '] (merged separators ws) := by
  rw [tidied_eq]
  exact (spells_merged separators h).collapse_eq

lemma simple_and_keeps {p : Separator} (hp : p ∈ separators) (hne : p.mark ≠ equals.mark) :
    p.Simple ∧ ∀ q ∈ separators, p.Keeps q := by
  have hmark : p.mark.length = 1 ∨ p.mark = arrow.mark := by
    simp only [separators, brackets, mem_cons, not_mem_nil, or_false] at hp
    rcases hp with rfl | rfl | rfl | rfl | rfl | rfl | rfl <;> simp_all [comma, arrow, equals]
  rcases hmark with hmark | hmark
  · obtain ⟨c, hc⟩ := length_eq_one_iff.mp hmark
    refine ⟨by simp [Separator.Simple, hc], fun q _ => Separator.keeps_of_length_eq_one hmark q⟩
  · refine ⟨by simp [Separator.Simple, hmark, arrow], fun q hq x y heq hx hy => ?_⟩
    obtain ⟨rfl, rfl⟩ : x = ['-'] ∧ y = ['>'] := by
      rw [hmark] at heq
      rcases x with _ | ⟨a, _ | ⟨b, x⟩⟩ <;> simp_all [arrow]
      exact heq.1.symm
    simp only [separators, brackets, mem_cons, not_mem_nil, or_false] at hq
    rcases hq with rfl | rfl | rfl | rfl | rfl | rfl | rfl <;> simp [comma, arrow, equals]

/-- Neighbours that no separator joins, `==` apart. -/
def Apart (ws : List (List Char)) : Prop :=
  ∀ p ∈ separators, p.mark ≠ equals.mark → ws.IsChain fun w v => p.glues w v = false

lemma isChain_merged {p : Separator} (hp : p.Simple) (ps : List Separator)
    (hkeep : ∀ q ∈ ps, p.Keeps q) (h : Spells ws s) (hws : ws.IsChain fun w v => p.glues w v = false) :
    (merged ps ws).IsChain fun w v => p.glues w v = false := by
  induction ps generalizing ws s with
  | nil => exact hws
  | cons q ps ih =>
    refine ih (fun r hr => hkeep r (mem_cons_of_mem _ hr)) (h.drop q) ?_
    refine (hkeep q mem_cons_self).isChain_merge hp (fun w hw => (h.word w hw).ne_nil) ?_
    exact hws.imp fun _ _ hglue _ => hglue

lemma apart_merged (h : Spells ws s) : Apart (merged separators ws) := by
  intro p hp hne
  obtain ⟨hsimple, hkeep⟩ := simple_and_keeps hp hne
  obtain ⟨first, rest, hsplit⟩ := append_of_mem hp
  rw [hsplit, merged, foldl_append, foldl_cons]
  have hfirst := spells_merged first h
  refine isChain_merged hsimple rest (fun q hq => hkeep q (by simp [hsplit, hq])) (hfirst.drop p) ?_
  refine (hkeep p hp).isChain_merge hsimple (fun w hw => (hfirst.word w hw).ne_nil) ?_
  exact isChain_iff_forall_rel_of_append_cons_cons.mpr fun _ _ _ _ _ hglue => hglue

/-- The words of a tidied line. -/
structure Tidy (line : List Char) (ws : List (List Char)) : Prop where
  spells : Spells ws (tidied line)
  eq_join : tidied line = join [' '] ws
  apart : Apart ws
  subset : ws.flatten ⊆ line
  head : ∀ c ∈ (tidied line).head?, isBlank c = false
  last : ∀ c ∈ (tidied line).getLast?, isBlank c = false

lemma tidy_of_ne_nil (h : tidied line ≠ []) : ∃ ws, Tidy line ws := by
  have hne : trim line ≠ [] := by
    intro hnil
    rw [tidied_eq, hnil] at h
    exact h rfl
  obtain ⟨c, t, hcons⟩ := exists_cons_of_ne_nil hne
  have hsolid : Solid (trim line) := by
    refine ⟨c, by simp [hcons], fun heq => ?_⟩
    have hblank := trim_head (s := line) (c := c) (by simp [hcons])
    simp [heq, isBlank_space] at hblank
  have hend : ∃ d ∈ (trim line).getLast?, d ≠ ' ' := by
    refine ⟨(trim line).getLast hne, by simp [getLast?_eq_some_getLast hne], fun heq => ?_⟩
    have hblank := trim_getLast (s := line) (getLast?_eq_some_getLast hne)
    simp [heq, isBlank_space] at hblank
  obtain ⟨ws, hws⟩ := Spells.exists_of_solid hsolid hend
  have hmerged := spells_merged separators hws
  have heq := tidied_of_spells hws
  have hspells : Spells (merged separators ws) (tidied line) := by
    rw [heq]
    exact .of_words hmerged.ne_nil hmerged.word
  refine ⟨merged separators ws, hspells, heq, apart_merged hws, ?_, fun c hc => ?_, fun c hc => ?_⟩
  · rw [flatten_merged]
    exact fun c hc =>
      (dropWhile_suffix _).subset ((trimRight_isPrefix _).subset (hws.flatten_subset hc))
  · rw [← hspells.head?_flatten, flatten_merged, hws.head?_flatten] at hc
    exact trim_head hc
  · rw [← hspells.getLast?_flatten, flatten_merged, hws.getLast?_flatten] at hc
    exact trim_getLast hc

lemma join_cons (w : List Char) (hws : ws ≠ []) :
    join [' '] (w :: ws) = w ++ ([' '] ++ join [' '] ws) := by
  rw [join, join, intercalate_cons_of_ne_nil hws, append_assoc]

lemma join_append (hws : ws ≠ []) (hvs : vs ≠ []) :
    join [' '] (ws ++ vs) = join [' '] ws ++ ([' '] ++ join [' '] vs) := by
  induction ws with
  | nil => exact absurd rfl hws
  | cons w ws ih =>
    cases ws with
    | nil =>
      rw [singleton_append, join_cons w hvs]
      simp [join]
    | cons u ws =>
      rw [cons_append, join_cons w (by simp), ih (by simp), join_cons w (by simp)]
      simp

lemma join_concat_append (ws : List (List Char)) (v w : List Char) :
    join [' '] (ws ++ [v ++ w]) = join [' '] (ws ++ [v]) ++ w := by
  cases ws with
  | nil => simp [join]
  | cons u ws =>
    rw [join_append (by simp) (by simp), join_append (by simp) (by simp)]
    simp [join]

lemma prefix_join (w : List Char) (ws : List (List Char)) : w <+: join [' '] (w :: ws) := by
  cases ws with
  | nil => simp [join]
  | cons v ws =>
    rw [join, intercalate_cons_cons, append_assoc]
    exact prefix_append _ _

lemma words_join (hne : ws ≠ []) (hspace : ∀ w ∈ ws, ' ' ∉ w) :
    words (join [' '] ws) = ws.filter fun w => !w.isEmpty := by
  rw [words, split_singleton, join, splitOn_intercalate _ hspace hne]

lemma words_join_of_word (hne : ws ≠ []) (hword : ∀ w ∈ ws, Word w) : words (join [' '] ws) = ws := by
  rw [words_join hne fun w hw => (hword w hw).no_space]
  exact filter_eq_self.mpr fun w hw => by simp [(hword w hw).ne_nil]

/-- The words of a line before its semicolon. -/
structure Body (line : List Char) (ws : List (List Char)) : Prop where
  word : ∀ w ∈ ws, Word w
  apart : Apart ws
  subset : ws.flatten ⊆ line
  first : ∀ w ∈ ws.head?, w <+: tidied line
  length : ws.length ≤ (words (tidied line)).length

lemma Apart.left (h : Apart (ws ++ vs)) : Apart ws :=
  fun p hp hne => (h p hp hne).left_of_append

lemma Apart.of_concat {v w : List Char} (h : Apart (ws ++ [v ++ w])) : Apart (ws ++ [v]) := by
  intro p hp hne
  have hchain := h p hp hne
  rw [isChain_append] at hchain ⊢
  refine ⟨hchain.1, by simp, fun x hx y hy => ?_⟩
  obtain rfl : v = y := by simpa using hy
  have hglue := hchain.2.2 x hx (v ++ w) (by simp)
  rw [Separator.glues_eq_false_iff] at hglue ⊢
  grind

lemma Tidy.body {body : List Char} (h : Tidy line ws) (hbody : tidied line = body ++ [';']) :
    Body line (words body) := by
  obtain ⟨init, last, rfl⟩ : ∃ init last, ws = init ++ [last] :=
    ⟨_, _, (dropLast_append_getLast h.spells.ne_nil).symm⟩
  have hword := h.spells.word
  have hinit : ∀ w ∈ init, Word w := fun w hw => hword w (mem_append_left _ hw)
  have hlast : Word last := hword last (by simp)
  obtain ⟨v, rfl, rfl⟩ : ∃ v, last = v ++ [';'] ∧ body = join [' '] (init ++ [v]) := by
    obtain ⟨v, c, rfl⟩ : ∃ v c, last = v ++ [c] :=
      ⟨_, _, (dropLast_append_getLast hlast.ne_nil).symm⟩
    rw [h.eq_join, join_concat_append] at hbody
    obtain ⟨hv, hc⟩ := append_inj' hbody rfl
    exact ⟨v, by rw [hc], hv.symm⟩
  have hspace : ' ' ∉ v := fun hmem => hlast.no_space (mem_append_left _ hmem)
  have hfilter : init.filter (fun w => !w.isEmpty) = init :=
    filter_eq_self.mpr fun w hw => by simp [(hinit w hw).ne_nil]
  have hwords : words (join [' '] (init ++ [v])) = init ++ [v].filter fun w => !w.isEmpty := by
    rw [words_join (by simp), filter_append, hfilter]
    intro w hw
    rcases mem_append.mp hw with hw | hw
    · exact (hinit w hw).no_space
    · rwa [mem_singleton.mp hw]
  have hsubset : (init ++ [v]).flatten ⊆ line := by
    refine List.Subset.trans ?_ h.subset
    intro c hc
    simp only [flatten_append, mem_append, flatten_cons, flatten_nil, append_nil] at hc ⊢
    exact hc.imp_right .inl
  have hfirst : ∀ w ∈ (init ++ [v]).head?, w <+: tidied line := by
    rw [h.eq_join]
    cases init with
    | nil => simp [join]
    | cons u init => simpa using prefix_join u (init ++ [v ++ [';']])
  have hlength : (words (tidied line)).length = init.length + 1 := by
    rw [h.eq_join, words_join_of_word (by simp) hword]
    simp
  by_cases hv : v = []
  · rw [hwords]
    subst hv
    refine ⟨by simpa using hinit, by simpa using h.apart.left, by simpa using hsubset, ?_,
      by simp [hlength]⟩
    cases init with
    | nil => simp
    | cons u init => simpa using hfirst
  · have hkeep : [v].filter (fun w => !w.isEmpty) = [v] := by simp [hv]
    rw [hwords, hkeep]
    refine ⟨fun w hw => ?_, h.apart.of_concat, hsubset, hfirst, by simp [hlength]⟩
    rcases mem_append.mp hw with hw | hw
    · exact hinit w hw
    · rw [mem_singleton.mp hw]
      exact ⟨hv, hspace⟩

end GadgetCircuits.Qasm

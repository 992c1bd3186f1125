import GadgetCircuits.Proofs.FullTurns
import GadgetCircuits.Proofs.Prelude
import GadgetCircuits.Proofs.QasmLine
import Mathlib.Data.Rat.Floor

/-!
The notation of angles. Numbers are read back as they are written, also with a minus sign. Spaces
around the signs and around π are dropped before an angle is read, and of the notations only the one
in which the angle is written fits.
-/

open List GadgetCircuits.Numeral

namespace GadgetCircuits.Numeral

open Text

variable {c : Char}

lemma toNat_of_isDigit (hc : c.isDigit) : 48 ≤ c.toNat ∧ c.toNat ≤ 57 := by
  simpa [Char.isDigit, Char.le_def, UInt32.le_iff_toNat_le] using hc

lemma digit?_of_isDigit (hc : c.isDigit) : digit? c = some (c.toNat - 48) := by
  obtain ⟨hlow, hhigh⟩ := toNat_of_isDigit hc
  have hfirst : zeros.find? (fun z => z ≤ c.toNat && c.toNat < z + 10) = some 48 := by
    rw [zeros, find?_cons_of_pos]
    simp only [Bool.and_eq_true, decide_eq_true_eq]
    omega
  rw [digit?, hfirst]
  rfl

lemma isBlank_of_isDigit (hc : c.isDigit) : isBlank c = false := by
  obtain ⟨hlow, hhigh⟩ := toNat_of_isDigit hc
  simp only [isBlank, Bool.or_eq_false_iff, Bool.and_eq_false_imp, decide_eq_true_eq,
    decide_eq_false_iff_not, beq_eq_false_iff_ne]
  omega

lemma more_of_isDigit {cs : List Char} (hcs : ∀ c ∈ cs, c.isDigit) :
    more cs = (cs.map fun c => c.toNat - 48, []) := by
  induction cs with
  | nil => rfl
  | cons c cs ih =>
    have htail := ih fun d hd => hcs d (mem_cons_of_mem _ hd)
    rw [more.eq_def]
    simp only [digit?_of_isDigit (hcs c mem_cons_self), htail, map_cons]

lemma digitsValue_map (cs : List Char) :
    digitsValue (cs.map fun c => c.toNat - 48) = Nat.ofDigitChars 10 cs 0 := by
  rw [digitsValue, foldl_map, Nat.ofDigitChars_eq_foldl]
  rfl

lemma trim_of_isDigit {cs : List Char} (h : ∀ c ∈ cs, c.isDigit ∨ c = '-') : trim cs = cs := by
  have hblank : ∀ c ∈ cs, isBlank c = false := fun c hc =>
    (h c hc).elim isBlank_of_isDigit fun hc => hc ▸ by decide
  exact trim_eq_self (fun c hc => hblank c (mem_of_mem_head? hc))
    fun c hc => hblank c (mem_of_mem_getLast? hc)

lemma group?_of_isDigit {cs : List Char} (hne : cs ≠ []) (hcs : ∀ c ∈ cs, c.isDigit) :
    group? cs = some (cs.map fun c => c.toNat - 48, []) := by
  obtain ⟨c, rest, rfl⟩ := exists_cons_of_ne_nil hne
  rw [group?, digit?_of_isDigit (hcs c mem_cons_self),
    more_of_isDigit fun d hd => hcs d (mem_cons_of_mem _ hd)]
  rfl

lemma sign_of_isDigit {cs : List Char} (hcs : ∀ c ∈ cs, c.isDigit) : sign cs = (false, cs) := by
  unfold sign
  split
  · simp_all
  · simp_all
  · rfl

lemma toList_toString (n : Nat) : (toString n).toList = Nat.toDigits 10 n := by
  rw [Nat.toString_eq_ofList_toDigits, String.toList_ofList]

lemma isDigit_of_mem_toString {n : Nat} (hc : c ∈ (toString n).toList) : c.isDigit := by
  rw [toList_toString] at hc
  exact Nat.isDigit_of_mem_toDigits (by omega) (by omega) hc

lemma toString_toList_ne_nil (n : Nat) : (toString n).toList ≠ [] := by
  rw [toList_toString]
  exact Nat.toDigits_ne_nil

lemma group?_toString (n : Nat) :
    ∃ ds, group? (toString n).toList = some (ds, []) ∧ digitsValue ds = n := by
  refine ⟨_, group?_of_isDigit (toString_toList_ne_nil n) fun c hc => isDigit_of_mem_toString hc, ?_⟩
  rw [digitsValue_map, toList_toString, Nat.ofDigitChars_toDigits (by omega) (by omega)]

/-- Digits, with a minus sign or without, that are read as the number. -/
structure Writes (p : Int) (s : List Char) : Prop where
  ne_nil : s ≠ []
  char : ∀ c ∈ s, c.isDigit ∨ c = '-'
  read : int? s = some p

lemma Writes.notMem {p : Int} {s : List Char} (h : Writes p s) (hc : ¬ (c.isDigit ∨ c = '-')) : c ∉ s :=
  fun hmem => hc (h.char c hmem)

lemma Writes.isBlank {p : Int} {s : List Char} (h : Writes p s) (hc : c ∈ s) : isBlank c = false :=
  (h.char c hc).elim isBlank_of_isDigit fun hc => hc ▸ by decide

lemma writes_toString (n : Nat) : Writes n (toString n).toList := by
  have hchar : ∀ c ∈ (toString n).toList, c.isDigit := fun c hc => isDigit_of_mem_toString hc
  obtain ⟨ds, hgroup, hvalue⟩ := group?_toString n
  refine ⟨toString_toList_ne_nil n, fun c hc => .inl (hchar c hc), ?_⟩
  rw [int?, trim_of_isDigit fun c hc => .inl (hchar c hc), sign_of_isDigit hchar]
  simp only [hgroup, hvalue, signed, Bool.false_eq_true, if_false]

lemma writes_neg (n : Nat) : Writes (-n) ('-' :: (toString n).toList) := by
  have hchar : ∀ c ∈ '-' :: (toString n).toList, c.isDigit ∨ c = '-' :=
    forall_mem_cons.mpr ⟨.inr rfl, fun c hc => .inl (isDigit_of_mem_toString hc)⟩
  obtain ⟨ds, hgroup, hvalue⟩ := group?_toString n
  refine ⟨cons_ne_nil _ _, hchar, ?_⟩
  rw [int?, trim_of_isDigit hchar, sign]
  simp only [hgroup, hvalue, signed, if_true]

lemma writes_int (p : Int) : Writes p (toString p).toList := by
  cases p with
  | ofNat n => exact writes_toString n
  | negSucc n =>
    have htext : (toString (Int.negSucc n)).toList = '-' :: (toString (n + 1)).toList :=
      String.toList_append ..
    rw [htext]
    exact writes_neg (n + 1)

end GadgetCircuits.Numeral

namespace GadgetCircuits.Text

lemma cutLast?_append {sep x y : List Char} (hx : x ≠ []) (hy : y ≠ [])
    (hlast : ∀ j, 0 < j → ¬ sep <+: (sep ++ y).drop j) :
    cutLast? sep (x ++ (sep ++ y)) = some (x, y) := by
  obtain ⟨k, hk⟩ : ∃ k, (x ++ (sep ++ y)).length = x.length + 1 + k := by
    have hpos := length_pos_of_ne_nil hy
    exact ⟨sep.length + y.length - 1, by simp only [length_append]; omega⟩
  rw [cutLast?, findSome?_eq_some_iff]
  refine ⟨((range k).map (x.length + 1 + ·)).reverse, x.length, (range x.length).reverse,
    ?_, ?_, ?_⟩
  · rw [hk, range_add, range_succ]
    simp
  · have hpre : sep.isPrefixOf (sep ++ y) := List.isPrefixOf_iff_prefix.mpr (prefix_append _ _)
    simp [hpre, hx, hy]
  · intro i hi
    obtain ⟨j, -, rfl⟩ : ∃ j, j < k ∧ x.length + 1 + j = i := by simpa using hi
    have hdrop : (x ++ (sep ++ y)).drop (x.length + 1 + j) = (sep ++ y).drop (j + 1) := by
      rw [drop_append, drop_eq_nil_of_le (by omega), nil_append]
      congr 1
      omega
    have hnot := hlast (j + 1) (by omega)
    rw [← isPrefixOf_iff_prefix, Bool.not_eq_true] at hnot
    simp [hdrop, hnot]

end GadgetCircuits.Text

namespace GadgetCircuits.Qasm

variable {c : Char} {p q : Int} {s t : List Char}
variable (a : Angle)

open Text

lemma integer_toString (n : Nat) : integer (toString n).toList = .ok (n : Int) := by
  rw [integer, (writes_toString n).read]

lemma code_cases : a.code = "0" ∧ a.reduced = 0 ∨ a.code = "pi" ∧ a.reduced = 1 ∨
      (∃ d : Nat, a.code = "pi/" ++ toString d ∧ a.reduced = 1 / (d : ℚ) ∧ d ≠ 0) ∨
      ∃ n d : Nat, a.code = toString n ++ "*pi/" ++ toString d ∧ a.reduced = (n : ℚ) / (d : ℚ) ∧
        d ≠ 0 := by
  have hdiv := Rat.num_div_den a.reduced
  have hnum := Rat.num_nonneg.mpr a.reduced_nonneg
  have hden := a.reduced.den_nz
  rw [Angle.code, Angle.spell]
  split_ifs with hzero hone hden'
  · exact .inl ⟨rfl, Rat.num_eq_zero.mp hzero⟩
  · refine .inr (.inl ⟨rfl, hdiv.symm.trans ?_⟩)
    rw [hone, hden']
    norm_num
  · refine .inr (.inr (.inl ⟨a.reduced.den, rfl, hdiv.symm.trans ?_, hden⟩))
    rw [hone]
    norm_num
  · obtain ⟨n, hn⟩ := Int.eq_ofNat_of_zero_le hnum
    refine .inr (.inr (.inr ⟨n, a.reduced.den, ?_, hdiv.symm.trans ?_, hden⟩))
    · rw [hn]
      rfl
    · rw [hn]
      norm_num

lemma code_char {a : Angle} (hc : c ∈ a.code.toList) : c.isDigit ∨ c ∈ ['p', 'i', '/', '*'] := by
  have hdigit : ∀ n : Nat, c ∈ (toString n).toList → c.isDigit :=
    fun n h => isDigit_of_mem_toString h
  rcases code_cases a with ⟨h, -⟩ | ⟨h, -⟩ | ⟨d, h, -⟩ | ⟨n, d, h, -⟩ <;> rw [h] at hc
  · exact .inl (hdigit 0 hc)
  · exact .inr ((by decide : "pi".toList ⊆ ['p', 'i', '/', '*']) hc)
  · rw [String.toList_append, mem_append] at hc
    rcases hc with hc | hc
    · exact .inr ((by decide : "pi/".toList ⊆ ['p', 'i', '/', '*']) hc)
    · exact .inl (hdigit d hc)
  · rw [String.toList_append, String.toList_append, mem_append, mem_append] at hc
    rcases hc with (hc | hc) | hc
    · exact .inl (hdigit n hc)
    · exact .inr ((by decide : "*pi/".toList ⊆ ['p', 'i', '/', '*']) hc)
    · exact .inl (hdigit d hc)

lemma code_ne_nil : a.code.toList ≠ [] := by
  rcases code_cases a with ⟨h, -⟩ | ⟨h, -⟩ | ⟨d, h, -⟩ | ⟨n, d, h, -⟩ <;> rw [h] <;> simp

lemma isBlank_of_code_char (hc : c.isDigit ∨ c ∈ ['p', 'i', '/', '*']) : isBlank c = false := by
  rcases hc with hc | hc
  · exact isBlank_of_isDigit hc
  · simp only [mem_cons, not_mem_nil, or_false] at hc
    rcases hc with rfl | rfl | rfl | rfl <;> decide

lemma squeeze_once {sep x y : List Char} (hsep : sep ≠ []) (hx : ∀ c ∈ sep.head?, c ∉ x)
    (hy : ∀ c ∈ sep.head?, c ∉ y) : squeeze true true sep (x ++ (sep ++ y)) =
      dropSpacesRight x ++ (sep ++ dropSpaces y) := by
  rw [squeeze_eq, squeezeFrom, split_append_sep hsep hx, split_of_notMem hsep hy]
  simp [rejoin]

lemma dropSpacesRight_spaces {x : List Char} (hx : ' ' ∉ x) (k : Nat) :
    dropSpacesRight (x ++ replicate k ' ') = x := by
  have hdrop : dropSpaces x.reverse = x.reverse := by
    refine dropWhile_eq_self_iff.mpr fun hpos hhead => hx ?_
    rw [← beq_iff_eq.mp hhead]
    exact mem_reverse.mp (getElem_mem hpos)
  rw [dropSpacesRight, reverse_append, reverse_replicate, dropSpaces_spaces_append, hdrop,
    reverse_reverse]

def overText (k l : Nat) (t : List Char) : List Char :=
  "pi".toList ++ (List.replicate k ' ' ++ ("/".toList ++ (List.replicate l ' ' ++ t)))

lemma notMem_overText (ht : Writes q t) (k l : Nat) : '*' ∉ overText k l t := by
  simp [overText, ht.notMem (c := '*') (by decide)]

lemma squeeze_overText {x : List Char} (hspace : ' ' ∉ x) (hslash : '/' ∉ x) (ht : Writes q t)
    (k l : Nat) : squeeze true true "pi".toList
      (squeeze true true "/".toList (x ++ overText k l t)) = x ++ ("pi/".toList ++ t) := by
  have ht' : ' ' ∉ t := ht.notMem (by decide)
  have hassoc : x ++ overText k l t =
      (x ++ "pi".toList ++ replicate k ' ') ++ ("/".toList ++ (replicate l ' ' ++ t)) := by
    simp [overText]
  have htail : dropSpaces (replicate l ' ' ++ t) = t := by
    rw [dropSpaces_spaces_append]
    obtain ⟨c, rest, rfl⟩ := exists_cons_of_ne_nil ht.ne_nil
    exact dropSpaces_cons fun h => ht' (h ▸ mem_cons_self)
  rw [hassoc, squeeze_once (by decide) (by simp [hslash])
    (by simp [ht.notMem (c := '/') (by decide)]), dropSpacesRight_spaces (by simpa using hspace),
    htail, squeeze_of_no_space (by decide) (by decide) (by simp [hspace, ht'])]
  simp

lemma trim_spaced {x : List Char} (ht : Writes q t) (hx : ∀ c ∈ x.head?, isBlank c = false)
    (hsuffix : t <:+ x) (i : Nat) : trim (replicate i ' ' ++ x) = x := by
  have hlead : trim (replicate i ' ' ++ x) = trim x := by
    rw [trim, trimLeft, dropWhile_append_of_pos (by simp [isBlank_space])]
    rfl
  rw [hlead, trim_eq_self hx]
  rw [← getLast?_of_suffix hsuffix ht.ne_nil]
  exact fun c hc => ht.isBlank (mem_of_mem_getLast? hc)

lemma overText_suffix (k l : Nat) (t : List Char) : t <:+ overText k l t :=
  ⟨"pi".toList ++ replicate k ' ' ++ "/".toList ++ replicate l ' ', by simp [overText]⟩

lemma squeezed_multiple (hs : Writes p s) (ht : Writes q t) (i j k l : Nat) :
    squeezed (s ++ replicate i ' ' ++ ("*".toList ++ (replicate j ' ' ++ overText k l t))) =
      s ++ ("*pi/".toList ++ t) := by
  have hs' : ' ' ∉ s := hs.notMem (by decide)
  have hstar : ∀ c ∈ "*".toList.head?, c ∉ s ++ replicate i ' ' := by
    simp [hs.notMem (c := '*') (by decide)]
  have hstar' : ∀ c ∈ "*".toList.head?, c ∉ replicate j ' ' ++ overText k l t := by
    simp [notMem_overText ht]
  have hhead : ∀ c ∈ (s ++ replicate i ' ' ++ ("*".toList ++ (replicate j ' ' ++
      overText k l t))).head?, isBlank c = false := by
    rw [append_assoc, head?_append_of_ne_nil _ hs.ne_nil]
    exact fun c hc => hs.isBlank (mem_of_mem_head? hc)
  have htrim := trim_spaced ht hhead ((overText_suffix k l t).trans ((suffix_append _ _).trans
    ((suffix_append _ _).trans (suffix_append _ _)))) 0
  rw [replicate_zero, nil_append] at htrim
  rw [squeezed, htrim, squeeze_once (by decide) hstar hstar', dropSpacesRight_spaces hs',
    dropSpaces_spaces_append, ← append_assoc]
  exact (squeeze_overText (x := s ++ "*".toList) (by simp [hs'])
    (by simp [hs.notMem (c := '/') (by decide)]) ht k l).trans (by simp)

lemma squeezed_unit (ht : Writes q t) (i k l : Nat) :
    squeezed (replicate i ' ' ++ overText k l t) = "pi/".toList ++ t := by
  have hhead : ∀ c ∈ (overText k l t).head?, isBlank c = false := by
    simp [overText, show isBlank 'p' = false by decide]
  have habsent : squeeze true true "*".toList (overText k l t) = overText k l t := by
    rw [squeeze_eq, squeezeFrom, split_of_notMem (by decide) (by simp [notMem_overText ht])]
    simp [rejoin]
  rw [squeezed, trim_spaced ht hhead (overText_suffix k l t), habsent]
  exact squeeze_overText (x := []) (by simp) (by simp) ht k l

lemma part?_of_writes {q : Int} {t : List Char} (ht : Writes q t) : part? t = some t := by
  have hline : t.contains '\n' = false := by
    rw [← Bool.not_eq_true, contains_iff_mem]
    intro hmem
    exact absurd (ht.char _ hmem) (by decide)
  rw [part?, hline]
  simp [nonempty?, ht.ne_nil]

lemma multiple_cases {p q : Int} {s t : List Char} (hs : Writes p s) (ht : Writes q t) :
    let w := s ++ ("*pi/".toList ++ t)
    (w == "pi".toList) = false ∧ (w == "0".toList) = false ∧ after? "pi/".toList w = none ∧
      before? "*pi".toList w = none ∧ w.contains '\n' = false ∧
      cutLast? "*pi/".toList w = some (s, t) := by
  have hmark : "*pi/".toList.length = 4 := by decide
  have hlength : 4 ≤ (s ++ ("*pi/".toList ++ t)).length := by
    rw [length_append, length_append]
    omega
  have hshort : ∀ w : List Char, w.length < 4 → (s ++ ("*pi/".toList ++ t) == w) = false := by
    intro w hw
    rw [beq_eq_false_iff_ne]
    rintro rfl
    omega
  refine ⟨hshort _ (by decide), hshort _ (by decide), ?_, ?_, ?_, ?_⟩
  · rw [after?_eq_none]
    intro hpre
    have hhead := head?_eq_of_isPrefix hpre (by decide)
    rw [head?_append_of_ne_nil _ hs.ne_nil] at hhead
    exact absurd (hs.char _ (mem_of_mem_head? hhead.symm)) (by decide)
  · rw [Option.eq_none_iff_forall_ne_some]
    intro x hx
    rw [before?_eq_some] at hx
    have hlast := getLast?_of_suffix ⟨x, hx.symm⟩ (by decide)
    rw [getLast?_append_of_ne_nil _ (by simp), getLast?_append_of_ne_nil _ ht.ne_nil] at hlast
    exact absurd (ht.char _ (mem_of_mem_getLast? hlast.symm)) (by decide)
  · rw [← Bool.not_eq_true, contains_iff_mem]
    intro hmem
    rcases mem_append.mp hmem with hmem | hmem
    · exact absurd (hs.char _ hmem) (by decide)
    · rcases mem_append.mp hmem with hmem | hmem
      · exact absurd hmem (by decide)
      · exact absurd (ht.char _ hmem) (by decide)
  · refine cutLast?_append hs.ne_nil ht.ne_nil fun j hj hpre => ?_
    obtain ⟨k, rfl⟩ : ∃ k, j = k + 1 := ⟨j - 1, by omega⟩
    have hmem : '*' ∈ ("pi/".toList ++ t).drop k := hpre.subset (by decide)
    rcases mem_append.mp (mem_of_mem_drop hmem) with hmem | hmem
    · exact absurd hmem (by decide)
    · exact absurd (ht.char _ hmem) (by decide)

lemma readAngle_multiple {p q : Int} {w s t : List Char} (hs : Writes p s) (ht : Writes q t)
    (hw : squeezed w = s ++ ("*pi/".toList ++ t)) : readAngle w = quotient p q := by
  obtain ⟨hpi, hzero, hafter, hbefore, hline, hcut⟩ := multiple_cases hs ht
  rw [readAngle, hw]
  simp only [hpi, hzero, hafter, hbefore, hcut, hline, Option.bind_none, Bool.false_eq_true, if_false,
    integer, hs.read, ht.read, ok_bind]

lemma readAngle_unit {q : Int} {w t : List Char} (ht : Writes q t)
    (hw : squeezed w = "pi/".toList ++ t) : readAngle w = quotient 1 q := by
  have hafter : (after? "pi/".toList ("pi/".toList ++ t)).bind part? = some t := by
    rw [after?_eq_some.mpr rfl]
    exact part?_of_writes ht
  have hpi : ("pi/".toList ++ t == "pi".toList) = false := by
    rw [beq_eq_false_iff_ne]
    intro h
    have := congrArg length h
    simp at this
  have hzero : ("pi/".toList ++ t == "0".toList) = false := by
    simp
  rw [readAngle, hw]
  simp only [hpi, hzero, hafter, Bool.false_eq_true, if_false, integer, ht.read, ok_bind]

lemma readAngle_code : readAngle a.code.toList = .ok a.normalize := by
  rw [Angle.normalize]
  rcases code_cases a with ⟨h, hred⟩ | ⟨h, hred⟩ | ⟨d, h, hred, hd⟩ | ⟨n, d, h, hred, hd⟩ <;>
    rw [h, hred]
  · rfl
  · rfl
  · have htext : ("pi/" ++ toString d).toList = overText 0 0 (toString d).toList := by
      simp [overText]
    have hread := readAngle_unit (writes_toString d) (squeezed_unit (writes_toString d) 0 0 0)
    rw [htext]
    exact hread.trans (by simp [quotient, hd])
  · have htext : (toString n ++ "*pi/" ++ toString d).toList = (toString n).toList ++
        replicate 0 ' ' ++ ("*".toList ++ (replicate 0 ' ' ++ overText 0 0 (toString d).toList)) := by
      simp [overText]
    have hread := readAngle_multiple (writes_toString n) (writes_toString d)
      (squeezed_multiple (writes_toString n) (writes_toString d) 0 0 0 0)
    rw [htext]
    exact hread.trans (by simp [quotient, hd])

lemma normalize_same : a.normalize.same a := by
  simp [Angle.same]

def spaces (k : Nat) : String :=
  String.ofList (List.replicate k ' ')

/-- The text of an angle is read as the angle up to full turns, and so is every quotient of whole
numbers times π, or of π and a whole number, with spaces around the signs and around π. -/
theorem readAngle_texts :
    (∀ a : Angle, ∃ b, readAngle a.code.toList = .ok b ∧ b.same a) ∧
    ∀ (p q : Int) (i j k l : Nat), q ≠ 0 →
      readAngle (toString p ++ spaces i ++ "*" ++ spaces j ++ "pi" ++ spaces k ++ "/" ++ spaces l ++
        toString q).toList = .ok ⟨(p : ℚ) / q⟩ ∧
      readAngle (spaces i ++ "pi" ++ spaces j ++ "/" ++ spaces k ++ toString q).toList =
        .ok ⟨1 / (q : ℚ)⟩ := by
  refine ⟨fun a => ⟨_, readAngle_code a, normalize_same a⟩, fun p q i j k l hq => ⟨?_, ?_⟩⟩
  · have hread := readAngle_multiple (writes_int p) (writes_int q)
      (squeezed_multiple (writes_int p) (writes_int q) i j k l)
    rw [quotient, if_neg hq] at hread
    simpa [overText, spaces] using hread
  · have hread := readAngle_unit (writes_int q) (squeezed_unit (writes_int q) i j k)
    rw [quotient, if_neg hq] at hread
    simpa [overText, spaces] using hread

theorem readAngle_spread : (-4 : Int) ≠ 0 ∧
    readAngle (toString (-3 : Int) ++ spaces 1 ++ "*" ++ spaces 2 ++ "pi" ++ spaces 0 ++ "/" ++
      spaces 1 ++ toString (-4 : Int)).toList = .ok ⟨((-3 : Int) : ℚ) / (-4 : Int)⟩ :=
  ⟨by decide, (readAngle_texts.2 (-3) (-4) 1 2 0 1 (by decide)).1⟩

end GadgetCircuits.Qasm

import GadgetCircuits.Proofs.AngleText

/-!
Names, registers and targets are read back as they are written.
-/

open List GadgetCircuits.Numeral

namespace GadgetCircuits.Qasm

variable {c : Char} {name : List Char} {natures : List Nature} {r : Register} {rs : Registers}
  {t : Target}

open Text

structure Named (s : List Char) : Prop where
  ne_nil : s ≠ []
  alphanum : ∀ c ∈ s, c.isAlphanum = true

lemma Named.notMem {s : List Char} (h : Named s) (hc : c.isAlphanum = false) : c ∉ s := by
  intro hmem
  simp [h.alphanum c hmem] at hc

lemma bracketed?_eq_some {opening closing : Char} {word inner : List Char}
    (hopening : opening.isAlphanum = false) :
    bracketed? opening closing word = some (name, inner) ↔
      Named name ∧ inner ≠ [] ∧ word = name ++ ([opening] ++ (inner ++ [closing])) := by
  simp only [bracketed?, Option.bind_eq_bind, Option.bind_eq_some_iff, nonempty?_eq_some,
    after?_eq_some, before?_eq_some, Option.pure_def, Option.some.injEq, Prod.mk.injEq]
  constructor
  · rintro ⟨_, ⟨hname, hne⟩, _, hdrop, _, rfl, _, ⟨rfl, hinner⟩, rfl, rfl⟩
    refine ⟨⟨hne, fun c hc => ?_⟩, hinner, ?_⟩
    · rw [← hname] at hc
      exact mem_takeWhile_imp hc
    · rw [← hdrop, ← hname, takeWhile_append_dropWhile]
  · rintro ⟨hname, hinner, rfl⟩
    have htake : (name ++ ([opening] ++ (inner ++ [closing]))).takeWhile Char.isAlphanum = name := by
      rw [takeWhile_append_of_pos hname.alphanum]
      simp [hopening]
    have hdrop : (name ++ ([opening] ++ (inner ++ [closing]))).dropWhile Char.isAlphanum =
        [opening] ++ (inner ++ [closing]) := by
      rw [dropWhile_append_of_pos hname.alphanum]
      simp [hopening]
    exact ⟨name, ⟨htake, hname.ne_nil⟩, _, hdrop, inner, rfl, inner, ⟨rfl, hinner⟩, rfl, rfl⟩

structure Register.Proper (r : Register) : Prop where
  nature : r.nature ≠ .other
  named : Named r.name.toList
  pos : 0 < r.size.val
  plain : r.size.truth = false

lemma Count.text_of_plain {c : Count} (hc : c.truth = false) : c.text = toString c.val := by
  simp [Count.text, hc]

lemma expect_eq_ok {α : Type} {x : Option α} {a : α} : expect x = .ok a ↔ x = some a := by
  cases x <;> simp [expect]

lemma Registers.find?_eq_some {nature : Nature} (h : rs.find? nature name = some r) :
    r ∈ rs ∧ r.nature = nature ∧ r.name.toList = name := by
  have hfound := find?_some h
  simp only [Bool.and_eq_true, beq_iff_eq] at hfound
  refine ⟨mem_of_find?_eq_some h, hfound.1, ?_⟩
  rw [hfound.2, String.toList_ofList]

lemma readRegister_proper {nature : Nature} {word : List Char} (hnature : nature ≠ .other)
    (h : readRegister nature word = .ok r) : r.Proper ∧ r.nature = nature := by
  rw [readRegister] at h
  obtain ⟨⟨name, size⟩, hword, h⟩ := bind_eq_ok.mp h
  obtain ⟨n, -, h⟩ := bind_eq_ok.mp h
  by_cases hn : n ≤ 0
  · rw [if_pos hn] at h
    cases h
  rw [if_neg hn] at h
  cases h
  obtain ⟨hname, -⟩ := (bracketed?_eq_some (by decide)).mp (expect_eq_ok.mp hword)
  refine ⟨⟨hnature, ?_, ?_, rfl⟩, rfl⟩
  · rwa [String.toList_ofList]
  · change 0 < n.toNat
    omega

def Register.word (r : Register) : List Char :=
  r.name.toList ++ (['['] ++ ((toString r.size.val).toList ++ [']']))

lemma readRegister_word (hr : r.Proper) : readRegister r.nature r.word = .ok r := by
  have hbracket : bracketed? '[' ']' r.word = some (r.name.toList, (toString r.size.val).toList) :=
    (bracketed?_eq_some (by decide)).mpr ⟨hr.named, toString_toList_ne_nil _, rfl⟩
  have hpos : ¬ (r.size.val : Int) ≤ 0 := by
    have hpos := hr.pos
    omega
  rw [readRegister, hbracket, expect, ok_bind]
  simp only [integer_toString, ok_bind, if_neg hpos]
  obtain ⟨nature, name, ⟨val, truth⟩⟩ := r
  obtain rfl : truth = false := hr.plain
  simp [pure, Except.pure]

structure Target.Fits (rs : Registers) (natures : List Nature) (t : Target) : Prop where
  found : natures.findSome? (fun k => rs.find? k t.register.name.toList) = some t.register
  nature : t.nature = t.register.nature
  plain : ∀ p ∈ t.pos, p.truth = false

lemma findSome?_find?_name (h : natures.findSome? (fun k => rs.find? k name) = some r) :
    r ∈ rs ∧ r.name.toList = name := by
  obtain ⟨k, -, hk⟩ := exists_of_findSome?_eq_some h
  obtain ⟨hmem, -, hname⟩ := Registers.find?_eq_some hk
  exact ⟨hmem, hname⟩

lemma readTarget_fits {word : List Char} (h : readTarget rs natures word = .ok t) :
    t.Fits rs natures := by
  rw [readTarget] at h
  split at h
  case h_1 r hr =>
    cases h
    obtain ⟨-, hname⟩ := findSome?_find?_name hr
    exact ⟨by rwa [hname], rfl, by simp⟩
  case h_2 =>
    obtain ⟨⟨name, pos⟩, -, h⟩ := bind_eq_ok.mp h
    obtain ⟨r, hr, h⟩ := bind_eq_ok.mp h
    obtain ⟨n, -, h⟩ := bind_eq_ok.mp h
    obtain ⟨p, hp, h⟩ := bind_eq_ok.mp h
    cases h
    rw [expect_eq_ok] at hr
    obtain ⟨-, hname⟩ := findSome?_find?_name hr
    refine ⟨by rwa [hname], rfl, ?_⟩
    rw [positionOf] at hp
    split_ifs at hp
    cases hp
    simp

lemma Target.Fits.text_eq (ht : t.Fits rs natures) :
    t.text.toList = t.register.name.toList ∧ t.pos = none ∨ ∃ n : Nat, t.pos = some ⟨n, false⟩ ∧
        t.text.toList = t.register.name.toList ++ (['['] ++ ((toString n).toList ++ [']'])) := by
  cases hpos : t.pos with
  | none => exact .inl ⟨by simp [Target.text, hpos], rfl⟩
  | some p =>
    obtain ⟨n, truth⟩ := p
    obtain rfl : truth = false := ht.plain _ hpos
    refine .inr ⟨n, rfl, ?_⟩
    simp [Target.text, hpos, Count.text]

variable (hrs : ∀ r ∈ rs, r.Proper)
include hrs

lemma readTarget_text (ht : t.Fits rs natures) : readTarget rs natures t.text.toList = .ok t := by
  obtain ⟨nature, register, pos⟩ := t
  obtain rfl : nature = register.nature := ht.nature
  obtain ⟨hmem, -⟩ := findSome?_find?_name ht.found
  have hnamed := (hrs _ hmem).named
  rw [readTarget]
  rcases ht.text_eq with ⟨htext, rfl⟩ | ⟨n, rfl, htext⟩
  · simp only [htext, ht.found]
    rfl
  · -- No register has a name with a bracket, so the position is read.
    have hnone : natures.findSome? (fun k => rs.find? k
        (register.name.toList ++ (['['] ++ ((toString n).toList ++ [']'])))) = none := by
      rw [findSome?_eq_none_iff]
      intro k _
      rw [Option.eq_none_iff_forall_ne_some]
      intro r hr
      obtain ⟨hr, -, hname⟩ := Registers.find?_eq_some hr
      refine (hrs r hr).named.notMem (c := '[') (by decide) ?_
      simp [hname]
    have hbracket : bracketed? '[' ']'
        (register.name.toList ++ (['['] ++ ((toString n).toList ++ [']']))) =
          some (register.name.toList, (toString n).toList) :=
      (bracketed?_eq_some (by decide)).mpr ⟨hnamed, toString_toList_ne_nil _, rfl⟩
    have hpos : ¬ (n : Int) < 0 := by omega
    simp only [htext, hnone, hbracket, expect, ok_bind, ht.found, integer_toString, positionOf,
      if_neg hpos]
    rfl

lemma Target.Fits.text_char (ht : t.Fits rs natures)
    (hc : c ∈ t.text.toList) : c.isAlphanum ∨ c = '[' ∨ c = ']' := by
  obtain ⟨hmem, -⟩ := findSome?_find?_name ht.found
  have hname := (hrs _ hmem).named.alphanum
  have hdigit : ∀ n : Nat, c ∈ (toString n).toList → c.isAlphanum := by
    intro n h
    simp [Char.isAlphanum, isDigit_of_mem_toString h]
  rcases ht.text_eq with ⟨htext, -⟩ | ⟨n, -, htext⟩ <;> rw [htext] at hc
  · exact .inl (hname c hc)
  · simp only [mem_append, mem_singleton] at hc
    rcases hc with hc | rfl | hc | rfl
    · exact .inl (hname c hc)
    · simp
    · exact .inl (hdigit n hc)
    · simp

lemma Target.Fits.text_head (ht : t.Fits rs natures) : ∃ c ∈ t.text.toList.head?, c.isAlphanum := by
  obtain ⟨hmem, -⟩ := findSome?_find?_name ht.found
  have hnamed := (hrs _ hmem).named
  obtain ⟨c, rest, hcons⟩ := exists_cons_of_ne_nil hnamed.ne_nil
  refine ⟨c, ?_, hnamed.alphanum c (by simp [hcons])⟩
  rcases ht.text_eq with ⟨htext, -⟩ | ⟨n, -, htext⟩ <;> simp [htext, hcons]

lemma readTargets_join {ts : List Target} (hne : ts ≠ [])
    (hts : ∀ t ∈ ts, t.Fits rs natures) :
    readTargets rs natures (join [','] (ts.map fun t => t.text.toList)) = .ok ts := by
  have hcomma : ∀ w ∈ ts.map fun t => t.text.toList, ',' ∉ w := by
    intro w hw hmem
    obtain ⟨t, ht, rfl⟩ := mem_map.mp hw
    exact absurd ((hts t ht).text_char hrs hmem) (by decide)
  have hread : ts.mapM (readTarget rs natures ∘ fun t => t.text.toList) = .ok (ts.map id) :=
    mapM_ok fun t ht => readTarget_text hrs (hts t ht)
  rw [readTargets, split_singleton, join, splitOn_intercalate _ hcomma (by simpa using hne),
    mapM_map, hread, map_id]

omit hrs

lemma readAngles_join {ps : List Angle} (hne : ps ≠ []) :
    readAngles (join [','] (ps.map fun a => a.code.toList)) = .ok (ps.map Angle.normalize) := by
  have hcomma : ∀ w ∈ ps.map fun a => a.code.toList, ',' ∉ w := by
    intro w hw hmem
    obtain ⟨a, -, rfl⟩ := mem_map.mp hw
    exact absurd (code_char hmem) (by decide)
  have hread : ps.mapM (readAngle ∘ fun a => a.code.toList) = .ok (ps.map Angle.normalize) := by
    refine mapM_ok fun a _ => ?_
    rw [Function.comp_apply, readAngle_code]
  rw [readAngles, split_singleton, join, splitOn_intercalate _ hcomma (by simpa using hne),
    mapM_map, hread]

lemma readTargets_fits {word : List Char} {ts : List Target}
    (h : readTargets rs natures word = .ok ts) : ∀ t ∈ ts, t.Fits rs natures := by
  intro t ht
  obtain ⟨w, -, hw⟩ := of_mem_mapM h t ht
  exact readTarget_fits hw

def conditionWord (r : Register) (value : Nat) : List Char :=
  "if(".toList ++ (r.name.toList ++ (['=', '='] ++ (toString value).toList) ++ [')'])

lemma readCondition_word (hr : r.Proper) (hfind : rs.find? .classical r.name.toList = some r)
    (value : Nat) : readCondition rs (conditionWord r value) = .ok (r, (value : Int)) := by
  have hdigits := toString_toList_ne_nil value
  have hno : '=' ∉ (toString value).toList := fun hmem =>
    absurd (isDigit_of_mem_toString hmem) (by decide)
  have hcut : cutLast? ['=', '='] (r.name.toList ++ (['=', '='] ++ (toString value).toList)) =
      some (r.name.toList, (toString value).toList) := by
    refine cutLast?_append hr.named.ne_nil hdigits fun j hj hpre => hno ?_
    rcases j with _ | _ | j
    · exact absurd hj (by omega)
    · exact (cons_prefix_cons.mp hpre).2.subset (by simp)
    · exact mem_of_mem_drop (hpre.subset (by simp))
  have hmark : "==".toList = ['=', '='] := rfl
  rw [readCondition, conditionWord, after?_eq_some.mpr rfl, Option.bind_some, before?_eq_some.mpr rfl,
    expect, ok_bind, hmark, hcut, expect, ok_bind]
  simp only [hfind, integer_toString, ok_bind]
  rfl

end GadgetCircuits.Qasm

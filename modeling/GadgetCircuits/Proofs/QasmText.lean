import GadgetCircuits.Proofs.QasmStatement

/-!
Lines that are written of statements and comments, and what is read from them. A statement that is read from
the words of a tidied line fits the registers that were read before it.
-/

open List hiding merge

namespace GadgetCircuits.Qasm

open Text Statement

variable {rs rs' : Registers} {s : Statement} {w v word : List Char} {ws : List (List Char)}
variable {ts : List Target} {r : Register}

lemma operand_eq_ok (h : operand (w :: ws) = .ok v) : ws = [v] := by
  unfold operand at h
  split at h
  · simp_all
  · cases h

lemma readTargets_ne_nil {natures : List Nature} (h : readTargets rs natures word = .ok ts) :
    ts ≠ [] := by
  obtain ⟨x, xs, hx⟩ := exists_cons_of_ne_nil (split_ne_nil [','] word)
  rw [readTargets, hx, mapM_cons] at h
  obtain ⟨t, -, h⟩ := bind_eq_ok.mp h
  obtain ⟨ts', -, h⟩ := bind_eq_ok.mp h
  cases h
  simp

lemma readAngles_ne_nil {ps : List Angle} (h : readAngles word = .ok ps) : ps ≠ [] := by
  obtain ⟨x, xs, hx⟩ := exists_cons_of_ne_nil (split_ne_nil [','] word)
  rw [readAngles, hx, mapM_cons] at h
  obtain ⟨a, -, h⟩ := bind_eq_ok.mp h
  obtain ⟨ps', -, h⟩ := bind_eq_ok.mp h
  cases h
  simp

lemma readVersion_eq (h : readVersion ws = .ok s) : s = .version ∧ ws ≠ [] := by
  unfold readVersion at h
  split at h
  · split_ifs at h
    cases h
    simp
  · cases h

lemma readDeclaration_fits {nature : Nature} (hnature : nature ≠ .other)
    (h : readDeclaration rs nature (w :: ws) = .ok (s, rs')) (inner : Bool) :
    s.Fits rs inner ∧ rs' = rs ++ s.declared ∧ s.guards + 2 ≤ (w :: ws).length := by
  rw [readDeclaration] at h
  obtain ⟨word, hword, h⟩ := bind_eq_ok.mp h
  obtain ⟨r, hr, h⟩ := bind_eq_ok.mp h
  obtain ⟨-, h⟩ | ⟨hany, h⟩ := ite_eq_iff.mp h
  · cases h
  cases h
  rw [operand_eq_ok hword]
  exact ⟨⟨(readRegister_proper hnature hr).1, by simpa using hany⟩, rfl, le_rfl⟩

lemma readLoad_fits (hspace : ' ' ∉ word) (hline : '\n' ∉ word) (h : readLoad word = .ok s)
    (inner : Bool) : s.Fits rs inner ∧ s.declared = [] ∧ s.guards = 0 := by
  rw [readLoad] at h
  obtain ⟨rest, hrest, h⟩ := bind_eq_ok.mp h
  obtain ⟨file, hfile, h⟩ := bind_eq_ok.mp h
  cases h
  rw [expect_eq_ok, after?_eq_some] at hrest
  rw [expect_eq_ok, Option.bind_eq_some_iff] at hfile
  obtain ⟨file', hbefore, hfile⟩ := hfile
  rw [before?_eq_some] at hbefore
  rw [nonempty?_eq_some] at hfile
  obtain ⟨rfl, hne⟩ := hfile
  subst hbefore hrest
  refine ⟨?_, rfl, rfl⟩
  simp only [Fits, String.toList_ofList]
  simp only [mem_append, not_or] at hspace hline
  exact ⟨hne, hspace.2.1, hline.2.1⟩

lemma readU_fits {head : List Char} (h : readU rs head word = .ok s) (inner : Bool) :
    s.Fits rs inner ∧ s.declared = [] ∧ s.guards = 0 := by
  rw [readU] at h
  obtain ⟨rest, -, h⟩ := bind_eq_ok.mp h
  obtain ⟨angles, -, h⟩ := bind_eq_ok.mp h
  split at h
  · obtain ⟨a, -, h⟩ := bind_eq_ok.mp h
    obtain ⟨b, -, h⟩ := bind_eq_ok.mp h
    obtain ⟨c, -, h⟩ := bind_eq_ok.mp h
    obtain ⟨q, hq, h⟩ := bind_eq_ok.mp h
    cases h
    exact ⟨readTarget_fits hq, rfl, rfl⟩
  · cases h

lemma readCX_fits (h : readCX rs word = .ok s) (inner : Bool) :
    s.Fits rs inner ∧ s.declared = [] ∧ s.guards = 0 := by
  rw [readCX] at h
  split at h
  · obtain ⟨c, hc, h⟩ := bind_eq_ok.mp h
    obtain ⟨t, ht, h⟩ := bind_eq_ok.mp h
    rw [cx?] at h
    split_ifs at h with hsizes
    cases h
    exact ⟨⟨readTarget_fits hc, readTarget_fits ht, by simpa using hsizes⟩, rfl, rfl⟩
  · cases h

lemma readMeasure_fits (h : readMeasure rs word = .ok s) (inner : Bool) :
    s.Fits rs inner ∧ s.declared = [] ∧ s.guards = 0 := by
  rw [readMeasure] at h
  split at h
  · obtain ⟨q, hq, h⟩ := bind_eq_ok.mp h
    obtain ⟨b, hb, h⟩ := bind_eq_ok.mp h
    rw [measure?] at h
    obtain ⟨_, hsizes, h⟩ := bind_eq_ok.mp h
    cases h
    exact ⟨⟨readTarget_fits hq, readTarget_fits hb, hsizes⟩, rfl, rfl⟩
  · cases h

lemma gate?_fits {n : String} {ps : List Angle} (h : gate? n ts ps = .ok s) :
    s = .gate n ts ps ∧ ts ≠ [] ∧ checkSizes ts = .ok () := by
  rw [gate?] at h
  obtain ⟨-, h⟩ | ⟨hempty, h⟩ := ite_eq_iff.mp h
  · cases h
  obtain ⟨_, hsizes, h⟩ := bind_eq_ok.mp h
  cases h
  exact ⟨rfl, by simpa using hempty, hsizes⟩

lemma guard_fits {value : Int} {body : Statement} (h : guard r value body = .ok s) :
    s = .guarded r ⟨value.toNat, false⟩ body ∧ value.toNat < pow2 r.size.val := by
  rw [guard] at h
  grind

lemma readCondition_find {value : Int} (h : readCondition rs w = .ok (r, value)) :
    rs.find? .classical r.name.toList = some r := by
  rw [readCondition] at h
  obtain ⟨rest, -, h⟩ := bind_eq_ok.mp h
  obtain ⟨⟨name, digits⟩, -, h⟩ := bind_eq_ok.mp h
  dsimp only at h
  split at h
  · cases h
  · next r' hr' =>
    obtain ⟨n, -, h⟩ := bind_eq_ok.mp h
    cases h
    obtain ⟨-, -, hname⟩ := Registers.find?_eq_some hr'
    rwa [hname]

/-- The first word of a statement, at the start of a line or after a condition. -/
structure Opening (inner : Bool) (w : List Char) : Prop where
  starts : inner = true → ∀ p ∈ separators, p.mark ≠ equals.mark → p.before = true → ¬ p.mark <+: w
  leads : inner = false →
    (∀ c ∈ w.head?, isBlank c = false) ∧ ¬ "//".toList <+: w ∧ ¬ "gate".toList <+: w

variable {inner : Bool}

lemma gateName_of_bracketed {name angles : List Char} (hline : '\n' ∉ w)
    (hu : ¬ "U".toList <+: w) (hif : ¬ "if".toList <+: w) (hopening : Opening inner w)
    (h : bracketed? '(' ')' w = some (name, angles)) : GateName inner false name := by
  obtain ⟨hnamed, -, rfl⟩ := (bracketed?_eq_some (by decide)).mp h
  have hpre : ∀ {k}, k <+: name → k <+: name ++ (['('] ++ (angles ++ [')'])) :=
    fun hk => hk.trans (prefix_append _ _)
  have hlast := getLast_mem hnamed.ne_nil
  have hfirm : FirmEnd name :=
    firmEnd_of_getLast ⟨_, getLast?_eq_some_getLast hnamed.ne_nil, .inl (hnamed.alphanum _ hlast)⟩
  refine ⟨⟨hnamed.ne_nil, hnamed.notMem (by decide)⟩, hnamed.notMem (by decide), fun hk => hu (hpre hk),
    fun hk => hif (hpre hk), by simp, by simp, fun _ => hnamed, fun p hp _ => hfirm p hp,
    fun hinner p hp hmark hbefore hk => hopening.starts hinner p hp hmark hbefore (hpre hk),
    fun hinner => ?_⟩
  obtain ⟨hblank, hcomment, hgate⟩ := hopening.leads hinner
  rw [head?_append_of_ne_nil _ hnamed.ne_nil] at hblank
  exact ⟨hblank, fun hk => hcomment (hpre hk), fun hk => hgate (hpre hk)⟩

lemma readGate_fits (hw : Word w) (hline : '\n' ∉ w) (hkey : w ∉ keywords)
    (hu : ¬ "U".toList <+: w) (hif : ¬ "if".toList <+: w) (hopening : Opening inner w)
    (hapart : Apart [w, v]) (h : readGate rs w v = .ok s) :
    s.Fits rs inner ∧ s.declared = [] ∧ s.guards = 0 := by
  rw [readGate] at h
  split at h
  · next name angles hbracket =>
    obtain ⟨ps, hps, h⟩ := bind_eq_ok.mp h
    rw [pure_bind] at h
    obtain ⟨ts, hts, h⟩ := bind_eq_ok.mp h
    obtain ⟨rfl, hne, hsizes⟩ := gate?_fits h
    have hname := gateName_of_bracketed hline hu hif hopening hbracket
    have hempty : ps.isEmpty = false := by simpa using readAngles_ne_nil hps
    refine ⟨⟨hne, readTargets_fits hts, hsizes, ?_⟩, rfl, rfl⟩
    rwa [String.toList_ofList, hempty]
  · next hbracket =>
    rw [pure_bind] at h
    obtain ⟨ts, hts, h⟩ := bind_eq_ok.mp h
    obtain ⟨rfl, hne, hsizes⟩ := gate?_fits h
    refine ⟨⟨hne, readTargets_fits hts, hsizes, ?_⟩, rfl, rfl⟩
    rw [String.toList_ofList]
    refine ⟨hw, hline, hu, hif, fun _ => hkey, fun _ => hbracket, by simp, fun p hp hmark hafter => ?_,
      hopening.starts, hopening.leads⟩
    have hglue : p.glues w v = false := by simpa using hapart p hp hmark
    exact ((p.glues_eq_false_iff w v).mp hglue).1 hafter

lemma Apart.tail {w : List Char} (h : Apart (w :: ws)) : Apart ws :=
  fun p hp hmark => (h p hp hmark).tail

lemma Apart.opening {w : List Char} (h : Apart (w :: ws)) : ∀ v ∈ ws.head?, Opening true v := by
  intro v hv
  refine ⟨fun _ p hp hmark hbefore => ?_, by simp⟩
  have hchain := h p hp hmark
  rw [eq_cons_of_mem_head? hv, isChain_cons_cons] at hchain
  exact ((p.glues_eq_false_iff w v).mp hchain.1).2 hbefore

lemma fits_of_map {x : Except Error Statement}
    (h : (x.map fun s => (s, rs)) = .ok (s, rs')) (hws : x = .ok s → ws ≠ [])
    (hfits : x = .ok s → s.Fits rs inner ∧ s.declared = [] ∧ s.guards = 0) :
    s.Fits rs inner ∧ rs' = rs ++ s.declared ∧ s.guards + 2 ≤ (w :: ws).length := by
  obtain ⟨s', hs', heq⟩ := map_eq_ok.mp h
  cases heq
  obtain ⟨hs, hdeclared, hguards⟩ := hfits hs'
  have hpos := length_pos_of_ne_nil (hws hs')
  refine ⟨hs, by rw [hdeclared, append_nil], ?_⟩
  rw [hguards, length_cons]
  omega

lemma fits_of_operand {f : List Char → Except Error Statement}
    (h : ((operand (w :: ws) >>= f).map fun s => (s, rs)) = .ok (s, rs'))
    (hfits : ∀ v, ws = [v] → f v = .ok s → s.Fits rs inner ∧ s.declared = [] ∧ s.guards = 0) :
    s.Fits rs inner ∧ rs' = rs ++ s.declared ∧ s.guards + 2 ≤ (w :: ws).length := by
  have hsecond : (operand (w :: ws) >>= f) = .ok s → ∃ v, ws = [v] ∧ f v = .ok s := by
    intro hs
    obtain ⟨v, hv, hs⟩ := bind_eq_ok.mp hs
    exact ⟨v, operand_eq_ok hv, hs⟩
  refine fits_of_map h (fun hs => ?_) fun hs => ?_
  · obtain ⟨v, rfl, -⟩ := hsecond hs
    exact cons_ne_nil v []
  · obtain ⟨v, hv, hs⟩ := hsecond hs
    exact hfits v hv hs

lemma readStatement_fits (hword : ∀ w ∈ ws, Word w) (hline : '\n' ∉ ws.flatten)
    (hapart : Apart ws) (hopening : ∀ w ∈ ws.head?, Opening inner w)
    (h : readStatement rs ws = .ok (s, rs')) :
    s.Fits rs inner ∧ rs' = rs ++ s.declared ∧ s.guards + 2 ≤ ws.length := by
  induction ws generalizing inner s rs' with
  | nil => cases h
  | cons w ws ih =>
    have hlines : '\n' ∉ w ∧ '\n' ∉ ws.flatten := by simpa using hline
    rw [readStatement] at h
    obtain ⟨-, h⟩ | ⟨hversion, h⟩ := ite_eq_iff.mp h
    · refine fits_of_map h (fun hs => (readVersion_eq hs).2) fun hs => ?_
      rw [(readVersion_eq hs).1]
      exact ⟨trivial, rfl, rfl⟩
    obtain ⟨-, h⟩ | ⟨hqreg, h⟩ := ite_eq_iff.mp h
    · exact readDeclaration_fits (by simp) h inner
    obtain ⟨-, h⟩ | ⟨hcreg, h⟩ := ite_eq_iff.mp h
    · exact readDeclaration_fits (by simp) h inner
    obtain ⟨-, h⟩ | ⟨hload, h⟩ := ite_eq_iff.mp h
    · refine fits_of_operand h fun v hv hs => ?_
      subst hv
      exact readLoad_fits (hword v (by simp)).no_space (by simpa using hlines.2) hs inner
    obtain ⟨-, h⟩ | ⟨hu, h⟩ := ite_eq_iff.mp h
    · exact fits_of_operand h fun v _ hs => readU_fits hs inner
    obtain ⟨-, h⟩ | ⟨hcx, h⟩ := ite_eq_iff.mp h
    · exact fits_of_operand h fun v _ hs => readCX_fits hs inner
    obtain ⟨-, h⟩ | ⟨hmeasure, h⟩ := ite_eq_iff.mp h
    · exact fits_of_operand h fun v _ hs => readMeasure_fits hs inner
    obtain ⟨-, h⟩ | ⟨hreset, h⟩ := ite_eq_iff.mp h
    · refine fits_of_operand h fun v _ hs => ?_
      obtain ⟨q, hq, hs⟩ := bind_eq_ok.mp hs
      cases hs
      exact ⟨readTarget_fits hq, rfl, rfl⟩
    obtain ⟨-, h⟩ | ⟨hbarrier, h⟩ := ite_eq_iff.mp h
    · refine fits_of_operand h fun v _ hs => ?_
      obtain ⟨ts, hts, hs⟩ := bind_eq_ok.mp hs
      cases hs
      exact ⟨⟨readTargets_ne_nil hts, readTargets_fits hts⟩, rfl, rfl⟩
    obtain ⟨-, h⟩ | ⟨hif, h⟩ := ite_eq_iff.mp h
    · obtain ⟨-, h⟩ | ⟨-, h⟩ := ite_eq_iff.mp h
      · cases h
      obtain ⟨⟨r, value⟩, hcondition, h⟩ := bind_eq_ok.mp h
      obtain ⟨⟨body, rs''⟩, hbody, h⟩ := bind_eq_ok.mp h
      obtain ⟨s', hguard, h⟩ := bind_eq_ok.mp h
      cases h
      obtain ⟨rfl, hvalue⟩ := guard_fits hguard
      obtain ⟨hfits, rfl, hguards⟩ := ih (fun v hv => hword v (mem_cons_of_mem _ hv)) hlines.2
        hapart.tail hapart.opening hbody
      exact ⟨⟨readCondition_find hcondition, rfl, hvalue, hfits⟩, rfl, Nat.succ_le_succ hguards⟩
    · refine fits_of_operand h fun v hv hs => ?_
      subst hv
      refine readGate_fits (hword w (by simp)) hlines.1 ?_ ?_ ?_ (hopening w (by simp)) hapart hs
      · simp only [beq_iff_eq] at hversion hqreg hcreg hload hcx hmeasure hreset hbarrier
        simp only [keywords, mem_cons, not_mem_nil, or_false, not_or]
        exact ⟨hversion, hqreg, hcreg, hload, hcx, hmeasure, hreset, hbarrier⟩
      · rwa [← isPrefixOf_iff_prefix]
      · rwa [← isPrefixOf_iff_prefix]

variable {c : Char} {vs : List (List Char)} {t : List Char} {natures : List Nature}

/-- A text that stays together in a word of a line. -/
structure Clean (w : List Char) : Prop where
  space : ' ' ∉ w
  line : '\n' ∉ w

lemma clean_of_not_blank (h : ∀ c ∈ w, isBlank c = false) : Clean w := by
  refine ⟨fun hmem => ?_, fun hmem => ?_⟩
  · exact absurd (h ' ' hmem) (by decide)
  · exact absurd (h '\n' hmem) (by decide)

lemma Clean.append (hw : Clean w) (hv : Clean v) : Clean (w ++ v) :=
  ⟨by simp [hw.space, hv.space], by simp [hw.line, hv.line]⟩

lemma isBlank_of_isAlphanum (hc : c.isAlphanum) : isBlank c = false := by
  have hrange : 48 ≤ c.toNat ∧ c.toNat ≤ 122 := by
    simp only [Char.isAlphanum, Char.isAlpha, Char.isUpper, Char.isLower, Char.isDigit, Bool.or_eq_true,
      Bool.and_eq_true, decide_eq_true_eq, ge_iff_le, UInt32.le_iff_toNat_le] at hc
    change ((65 ≤ c.toNat ∧ c.toNat ≤ 90) ∨ (97 ≤ c.toNat ∧ c.toNat ≤ 122)) ∨
      (48 ≤ c.toNat ∧ c.toNat ≤ 57) at hc
    omega
  simp only [isBlank, Bool.or_eq_false_iff, Bool.and_eq_false_imp, decide_eq_true_eq,
    decide_eq_false_iff_not, beq_eq_false_iff_ne]
  omega

lemma Named.clean (hw : Named w) : Clean w :=
  clean_of_not_blank fun c hc => isBlank_of_isAlphanum (hw.alphanum c hc)

lemma clean_toString (n : Nat) : Clean (toString n).toList :=
  clean_of_not_blank fun _ hc => Numeral.isBlank_of_isDigit (Numeral.isDigit_of_mem_toString hc)

lemma clean_codes (ps : List Angle) : ∀ w ∈ codes ps, Clean w := by
  intro w hw
  obtain ⟨a, -, rfl⟩ := mem_map.mp hw
  exact clean_of_not_blank fun c hc => isBlank_of_code_char (code_char hc)

lemma Target.Fits.text_ne_nil (hrs : ∀ r ∈ rs, r.Proper) {t : Target} (ht : t.Fits rs natures) :
    t.text.toList ≠ [] := by
  obtain ⟨c, hc, -⟩ := ht.text_head hrs
  intro hnil
  simp [hnil] at hc

lemma Target.Fits.clean (hrs : ∀ r ∈ rs, r.Proper) {t : Target} (ht : t.Fits rs natures) :
    Clean t.text.toList := by
  refine clean_of_not_blank fun c hc => ?_
  rcases ht.text_char hrs hc with hc | rfl | rfl
  · exact isBlank_of_isAlphanum hc
  · decide
  · decide

lemma clean_texts (hrs : ∀ r ∈ rs, r.Proper) (hts : ∀ t ∈ ts, t.Fits rs natures) :
    ∀ w ∈ texts ts, Clean w := by
  intro w hw
  obtain ⟨t, ht, rfl⟩ := mem_map.mp hw
  exact (hts t ht).clean hrs

lemma clean_listWords {start stop : List Char} {items : List (List Char)} (hstart : Clean start)
    (hitems : ∀ x ∈ items, Clean x) (hstop : Clean stop) (hne : stop ≠ []) :
    ∀ w ∈ listWords start items stop, w ≠ [] ∧ Clean w := by
  induction items generalizing start with
  | nil => simpa [listWords, hne] using hstart.append hstop
  | cons x items ih =>
    have hx := hitems x mem_cons_self
    cases items with
    | nil => simpa [listWords, hne] using hstart.append (hx.append hstop)
    | cons y items =>
      have hcomma : Clean [','] := ⟨by decide, by decide⟩
      have htail : ∀ w ∈ listWords [] (y :: items) stop, w ≠ [] ∧ Clean w :=
        ih ⟨by simp, by simp⟩ fun z hz => hitems z (mem_cons_of_mem _ hz)
      rw [listWords, forall_mem_cons]
      exact ⟨⟨by simp, hstart.append (hx.append hcomma)⟩, htail⟩

lemma Register.Proper.clean (hr : r.Proper) : Clean r.word :=
  hr.named.clean.append (Clean.append ⟨by decide, by decide⟩
    ((clean_toString _).append ⟨by decide, by decide⟩))

lemma clean_conditionWord (hr : r.Proper) (value : Nat) : Clean (conditionWord r value) := by
  have hname := hr.named.clean.append (Clean.append (w := ['=', '=']) ⟨by decide, by decide⟩
    (clean_toString value))
  exact Clean.append ⟨by decide, by decide⟩ (hname.append ⟨by decide, by decide⟩)

lemma clean_of_forall (h : w ≠ [] ∧ ' ' ∉ w ∧ '\n' ∉ w) : w ≠ [] ∧ Clean w := ⟨h.1, h.2.1, h.2.2⟩

lemma Clean.concat (hw : Clean w) (hc : c ≠ ' ' ∧ c ≠ '\n') : w ++ [c] ≠ [] ∧ Clean (w ++ [c]) :=
  ⟨by simp, hw.append ⟨by simpa using hc.1.symm, by simpa using hc.2.symm⟩⟩

lemma Statement.Fits.clean (hrs : ∀ r ∈ rs, r.Proper) (h : s.Fits rs inner) :
    ∀ w ∈ s.printed, w ≠ [] ∧ Clean w := by
  have hempty : Clean [] := ⟨by simp, by simp⟩
  have hsemicolon : Clean [';'] := ⟨by decide, by decide⟩
  have hparen : Clean [')'] := ⟨by decide, by decide⟩
  have htext : ∀ {natures} {t : Target}, t.Fits rs natures → t.text.toList ≠ [] ∧ Clean t.text.toList :=
    fun ht => ⟨ht.text_ne_nil hrs, ht.clean hrs⟩
  induction s generalizing inner with
  | version =>
    rw [printed, forall_mem_cons, forall_mem_singleton]
    exact ⟨clean_of_forall (by decide), clean_of_forall (by decide)⟩
  | declare r =>
    rw [printed, forall_mem_cons, forall_mem_singleton]
    refine ⟨?_, h.1.clean.concat (by decide)⟩
    cases r.nature <;> exact clean_of_forall (by decide)
  | load f =>
    rw [printed, forall_mem_cons, forall_mem_singleton]
    refine ⟨clean_of_forall (by decide), by simp, ?_⟩
    exact Clean.append ⟨by decide, by decide⟩ (Clean.append ⟨h.2.1, h.2.2⟩ ⟨by decide, by decide⟩)
  | comment t => exact h.elim
  | u a b c q =>
    have hq : q.Fits rs [.quantum] := h
    rw [printed, forall_mem_append]
    refine ⟨clean_listWords ⟨by decide, by decide⟩ (clean_codes _) hparen (by simp), ?_⟩
    exact clean_listWords hempty (clean_texts hrs (by simpa using hq)) hsemicolon (by simp)
  | cx c t =>
    rw [printed, forall_mem_cons, forall_mem_cons, forall_mem_singleton]
    exact ⟨clean_of_forall (by decide), htext h.1, (h.2.1.clean hrs).concat (by decide)⟩
  | measure q b =>
    rw [printed, forall_mem_cons, forall_mem_cons, forall_mem_cons,
      forall_mem_singleton]
    exact ⟨clean_of_forall (by decide), htext h.1, clean_of_forall (by decide),
      (h.2.1.clean hrs).concat (by decide)⟩
  | reset q =>
    have hq : q.Fits rs [.quantum] := h
    rw [printed, forall_mem_cons, forall_mem_singleton]
    exact ⟨clean_of_forall (by decide), (hq.clean hrs).concat (by decide)⟩
  | gate n ts ps =>
    obtain ⟨-, hts, -, hname⟩ := h
    have hn : Clean n.toList := ⟨hname.word.no_space, hname.line⟩
    rw [printed, forall_mem_append]
    refine ⟨?_, clean_listWords hempty (clean_texts hrs hts) hsemicolon (by simp)⟩
    split_ifs
    · rw [forall_mem_singleton]
      exact ⟨hname.word.ne_nil, hn⟩
    · exact clean_listWords (hn.concat (by decide)).2 (clean_codes _) hparen (by simp)
  | barrier ts =>
    rw [printed, forall_mem_cons]
    refine ⟨clean_of_forall (by decide), ?_⟩
    exact clean_listWords hempty (clean_texts hrs h.2) hsemicolon (by simp)
  | guarded r v s ih =>
    obtain ⟨hfind, -, -, hs⟩ := h
    obtain ⟨hmem, -⟩ := Registers.find?_eq_some hfind
    rw [printed, forall_mem_cons]
    exact ⟨⟨by simp [conditionWord], clean_conditionWord (hrs r hmem) _⟩, ih hs⟩

lemma Statement.Fits.spells (hrs : ∀ r ∈ rs, r.Proper) (h : s.Fits rs inner) :
    Spells s.printed (join [' '] s.printed) :=
  .of_words h.printed_ne_nil fun w hw =>
    ⟨(h.clean hrs w hw).1, (h.clean hrs w hw).2.space⟩

lemma flatten_listWords (start : List Char) (items : List (List Char)) (stop : List Char) :
    (listWords start items stop).flatten = start ++ (join [','] items ++ stop) := by
  rw [← flatten_merge comma.glues, merge_listWords, flatten_singleton]

lemma Statement.Fits.flatten_printed (h : s.Fits rs inner) :
    s.printed.flatten = s.words.flatten ++ [';'] := by
  induction s generalizing inner with
  | comment t => exact h.elim
  | gate n ts ps =>
    rw [printed, words, gateWord]
    split_ifs <;> simp [flatten_listWords]
  | guarded r v s ih => simp [printed, words, ih h.2.2.2]
  | _ => simp [printed, words, flatten_listWords, texts, join]

structure Leads (w : List Char) : Prop where
  blank : ∀ c ∈ w.head?, isBlank c = false
  comment : ¬ "//".toList <+: w
  gate : ¬ "gate".toList <+: w

lemma leads_of_head (hhead : c ∈ w.head?) (hc : c.isAlphanum) (hgate : ¬ "gate".toList <+: w) :
    Leads w := by
  refine ⟨fun d hd => ?_, fun hpre => ?_, hgate⟩
  · obtain rfl : c = d := Option.some_inj.mp (hhead.symm.trans hd)
    exact isBlank_of_isAlphanum hc
  · have hslash := (head?_eq_of_isPrefix hpre (by decide)).trans hhead
    obtain rfl : '/' = c := by simpa using hslash
    exact absurd hc (by decide)

lemma Statement.Fits.leads (h : s.Fits rs false) : ∀ w ∈ s.words.head?, Leads w := by
  cases s with
  | version =>
    rintro _ ⟨rfl⟩
    exact leads_of_head (c := 'O') rfl (by decide) (by decide)
  | declare r =>
    rintro _ ⟨rfl⟩
    cases r.nature
    · exact leads_of_head (c := 'q') rfl (by decide) (by decide)
    · exact leads_of_head (c := 'c') rfl (by decide) (by decide)
    · exact leads_of_head (c := 'c') rfl (by decide) (by decide)
  | load f =>
    rintro _ ⟨rfl⟩
    exact leads_of_head (c := 'i') rfl (by decide) (by decide)
  | comment t => exact h.elim
  | u a b c q =>
    rintro _ ⟨rfl⟩
    exact leads_of_head (c := 'U') rfl (by decide) (by simp)
  | cx c t =>
    rintro _ ⟨rfl⟩
    exact leads_of_head (c := 'C') rfl (by decide) (by decide)
  | measure q b =>
    rintro _ ⟨rfl⟩
    exact leads_of_head (c := 'm') rfl (by decide) (by decide)
  | reset q =>
    rintro _ ⟨rfl⟩
    exact leads_of_head (c := 'r') rfl (by decide) (by decide)
  | gate n ts ps =>
    rintro _ ⟨rfl⟩
    obtain ⟨-, -, -, hname⟩ := h
    obtain ⟨hblank, hcomment, hgate⟩ := hname.leads rfl
    rw [gateWord]
    split_ifs
    · exact ⟨hblank, hcomment, hgate⟩
    · rw [append_assoc]
      refine ⟨?_, fun hk => hcomment (prefix_of_prefix_append (by simp) hk),
        fun hk => hgate (prefix_of_prefix_append (by simp) hk)⟩
      rwa [head?_append_of_ne_nil _ hname.word.ne_nil]
  | barrier ts =>
    rintro _ ⟨rfl⟩
    exact leads_of_head (c := 'b') rfl (by decide) (by decide)
  | guarded r v s =>
    rintro _ ⟨rfl⟩
    exact leads_of_head (c := 'i') rfl (by decide) (by simp [conditionWord])

lemma join_texts_ne_nil (hrs : ∀ r ∈ rs, r.Proper) (hne : ts ≠ [])
    (hts : ∀ t ∈ ts, t.Fits rs natures) : join [','] (texts ts) ≠ [] := by
  obtain ⟨c, hc, -⟩ := head?_texts hrs hne hts []
  intro hnil
  simp [hnil] at hc

lemma Statement.Fits.words_word (hrs : ∀ r ∈ rs, r.Proper) (h : s.Fits rs inner) :
    ∀ w ∈ s.words, Word w := by
  have hspace : ' ' ∉ s.words.flatten := by
    intro hmem
    have hprinted : ' ' ∈ s.printed.flatten := by
      rw [h.flatten_printed]
      exact mem_append_left _ hmem
    obtain ⟨w, hw, hmem⟩ := mem_flatten.mp hprinted
    exact (h.clean hrs w hw).2.space hmem
  have hne : ∀ w ∈ s.words, w ≠ [] := by
    clear hspace
    induction s generalizing inner with
    | comment t => exact h.elim
    | declare r =>
      rw [words, forall_mem_cons, forall_mem_singleton]
      exact ⟨by cases r.nature <;> decide, by simp [Register.word]⟩
    | u a b c q =>
      have hq : q.Fits rs [.quantum] := h
      rw [words, forall_mem_cons, forall_mem_singleton]
      exact ⟨by simp, hq.text_ne_nil hrs⟩
    | cx c t =>
      rw [words, forall_mem_cons, forall_mem_cons, forall_mem_singleton]
      exact ⟨by decide, h.1.text_ne_nil hrs, h.2.1.text_ne_nil hrs⟩
    | reset q =>
      have hq : q.Fits rs [.quantum] := h
      rw [words, forall_mem_cons, forall_mem_singleton]
      exact ⟨by decide, hq.text_ne_nil hrs⟩
    | gate n ts ps =>
      obtain ⟨hts, hfits, -, hname⟩ := h
      rw [words, forall_mem_cons, forall_mem_singleton, gateWord]
      refine ⟨?_, join_texts_ne_nil hrs hts hfits⟩
      split_ifs
      · exact hname.word.ne_nil
      · simp
    | barrier ts =>
      rw [words, forall_mem_cons, forall_mem_singleton]
      exact ⟨by decide, join_texts_ne_nil hrs h.1 h.2⟩
    | guarded r v s ih =>
      rw [words, forall_mem_cons]
      exact ⟨by simp [conditionWord], ih h.2.2.2⟩
    | _ => simp [words]
  exact fun w hw => ⟨hne w hw, fun hmem => hspace (mem_flatten.mpr ⟨w, hw, hmem⟩)⟩

lemma Statement.Fits.tidied_text (hrs : ∀ r ∈ rs, r.Proper) (h : s.Fits rs false) :
    tidied (s.text.getD "").toList = join [' '] (merged separators s.printed) := by
  obtain ⟨t, ht, hjoin⟩ := h.text_eq
  have hspells := h.spells hrs
  have htrim : trim (join [' '] s.printed) = join [' '] s.printed := by
    refine trim_eq_self (fun c hc => ?_) fun c hc => ?_
    · obtain ⟨w, ws, hwords, -, -⟩ := h.words_eq
      have hw : w ≠ [] := (h.words_word hrs w (by simp [hwords])).ne_nil
      rw [← hspells.head?_flatten, h.flatten_printed, hwords, flatten_cons, append_assoc,
        head?_append_of_ne_nil _ hw] at hc
      exact (h.leads w (by simp [hwords])).blank c hc
    · rw [← hspells.getLast?_flatten, h.flatten_printed] at hc
      obtain rfl : ';' = c := by simpa using hc
      decide
  rw [ht, Option.getD_some, hjoin]
  exact tidied_of_spells (by rwa [htrim])

lemma readLine_of_tidied {line : List Char} (hws : ws ≠ []) (hword : ∀ w ∈ ws, Word w)
    (hleads : Leads (join [' '] ws ++ [';'])) (hline : tidied line = join [' '] ws ++ [';'])
    (acc : List Statement) :
    readLine (acc, rs) line = (do
      let (s, rs') ← inLine (join [' '] ws) (readStatement rs ws)
      return (acc ++ [s], rs')) := by
  have hwords := words_join_of_word hws hword
  have hgate : "gate".toList.isPrefixOf (join [' '] ws ++ [';']) = false := by
    rw [← Bool.not_eq_true, isPrefixOf_iff_prefix]
    exact hleads.gate
  have hempty : (join [' '] ws ++ [';']).isEmpty = false := by simp
  rw [readLine, hline, after?_eq_none.mpr hleads.comment]
  simp only [hempty, hgate, before?_eq_some.mpr rfl, hwords]
  rfl

lemma Leads.append_space (hw : w ≠ []) (h : Leads w) (t : List Char) : Leads (w ++ ([' '] ++ t)) := by
  refine ⟨?_, fun hk => h.comment (prefix_of_prefix_append (by simp) hk),
    fun hk => h.gate (prefix_of_prefix_append (by simp) hk)⟩
  rw [head?_append_of_ne_nil _ hw]
  exact h.blank

lemma Statement.Fits.readLine_text (hrs : ∀ r ∈ rs, r.Proper) (h : s.Fits rs false)
    (hcompact : s.Compact) (rs' : Registers) (acc : List Statement) :
    readLine (acc, rs') (s.text.getD "").toList = (do
      let (s', rs'') ← inLine (join [' '] s.words) (readStatement rs' s.words)
      return (acc ++ [s'], rs'')) := by
  have hword := h.words_word hrs
  refine readLine_of_tidied h.words_ne_nil hword ?_ ?_ acc
  · obtain ⟨w, ws, hwords, hws, -⟩ := h.words_eq
    rw [hwords, join_cons w hws, append_assoc, append_assoc]
    exact (h.leads w (by simp [hwords])).append_space (hword w (by simp [hwords])).ne_nil _
  · rw [h.tidied_text hrs, h.merged_printed hrs hcompact, join_close h.words_ne_nil]

def IsComment (t : List Char) : Prop :=
  ∃ line, '\n' ∉ line ∧ tidied line = "//".toList ++ t

lemma endsAt_slash {p : Separator} (hp : p ∈ separators) (w : List Char) :
    endsAt p.mark ('/' :: w) = endsAt p.mark w := by
  have hslash : ∀ p ∈ separators, '/' ∉ p.mark := by
    simp [separators, brackets, comma, equals, arrow]
  refine endsAt_cons p.ne_nil fun hpre => hslash p hp ?_
  exact mem_of_mem_head? (head?_eq_of_isPrefix hpre p.ne_nil)

/-- Words of a comment, with the slashes before or at the first one. -/
def Slashed (ws vs : List (List Char)) : Prop :=
  ws = "//".toList :: vs ∨ vs ≠ [] ∧ ws = vs.modifyHead ("//".toList ++ ·)

lemma slashed_merge {p : Separator} (hp : p ∈ separators) (h : Slashed ws vs) :
    Slashed (merge p.glues ws) (merge p.glues vs) := by
  rcases h with rfl | ⟨hvs, rfl⟩
  · cases vs with
    | nil => exact .inl rfl
    | cons v vs =>
      rw [merge]
      split_ifs
      · exact .inr ⟨merge_ne_nil v vs, rfl⟩
      · exact .inl rfl
  · obtain ⟨v, vs, rfl⟩ := exists_cons_of_ne_nil hvs
    refine .inr ⟨merge_ne_nil v vs, ?_⟩
    cases vs with
    | nil => rfl
    | cons u vs =>
      have hglues : p.glues ("//".toList ++ v) u = p.glues v u := by
        rw [Separator.glues, Separator.glues]
        change (p.after && endsAt p.mark ('/' :: '/' :: v) || _) = _
        rw [endsAt_slash hp, endsAt_slash hp]
      rw [modifyHead_cons, merge, merge, hglues]
      split_ifs
      · simp [modifyHead_modifyHead, Function.comp_def]
      · rfl

lemma slashed_merged {ps : List Separator} (hps : ∀ p ∈ ps, p ∈ separators) (h : Slashed ws vs) :
    Slashed (merged ps ws) (merged ps vs) := by
  induction ps generalizing ws vs with
  | nil => exact h
  | cons p ps ih =>
    exact ih (fun q hq => hps q (mem_cons_of_mem _ hq)) (slashed_merge (hps p mem_cons_self) h)

lemma join_modifyHead (hws : ws ≠ []) (w : List Char) :
    join [' '] (ws.modifyHead (w ++ ·)) = w ++ join [' '] ws := by
  obtain ⟨v, ws, rfl⟩ := exists_cons_of_ne_nil hws
  cases ws with
  | nil => simp [join]
  | cons u ws => simp [join_cons]

lemma drop_join (p : Separator) (hws : ws ≠ []) (hword : ∀ w ∈ ws, Word w) :
    p.drop (join [' '] ws) = join [' '] (merge p.glues ws) := by
  induction ws with
  | nil => exact absurd rfl hws
  | cons w ws ih =>
    have hw := hword w mem_cons_self
    cases ws with
    | nil =>
      simpa [join, merge, Separator.drop] using squeeze_of_no_space p.ne_nil p.no_space hw.no_space
    | cons v ws =>
      have htail := fun u hu => hword u (mem_cons_of_mem _ hu)
      have hspells : Spells (v :: ws) (join [' '] (v :: ws)) := .of_words (by simp) htail
      have hdrop := hspells.drop_cons p hw 0
      rw [hspells.isPrefixOf_eq, ih (by simp) htail] at hdrop
      rw [join_cons w (by simp), merge, Separator.glues]
      refine hdrop.trans ?_
      split_ifs
      · exact (join_modifyHead (merge_ne_nil v ws) w).symm
      · exact (join_cons w (merge_ne_nil v ws)).symm

lemma merged_apart (hword : ∀ w ∈ ws, Word w) (hapart : Apart ws) :
    merged separators ws = merge equals.glues ws := by
  have hcomma : merge comma.glues ws = ws :=
    merge_eq_self (hapart comma (by simp [separators]) (by decide))
  have hmarks : ∀ p ∈ arrow :: brackets, p.mark ≠ equals.mark := by decide
  have hrest : ∀ p ∈ arrow :: brackets,
      (merge equals.glues ws).IsChain fun w v => p.glues w v = false := by
    intro p hp
    have hp' : p ∈ separators := mem_cons_of_mem _ (mem_cons_of_mem _ hp)
    have hmark := hmarks p hp
    obtain ⟨hsimple, hkeep⟩ := simple_and_keeps hp' hmark
    have hne := fun w hw => (hword w hw).ne_nil
    refine (hkeep equals (by simp [separators])).isChain_merge hsimple hne ?_
    exact (hapart p hp' hmark).imp fun _ _ h _ => h
  rw [separators, merged, foldl_cons, hcomma, foldl_cons]
  exact merged_eq_self hrest

structure CommentWords (t : List Char) (vs : List (List Char)) : Prop where
  word : ∀ v ∈ vs, Word v
  apart : Apart vs
  last : ∀ c ∈ t.getLast?, isBlank c = false
  eq : t = join [' '] vs ∨ vs ≠ [] ∧ t = [' '] ++ join [' '] vs

lemma Apart.of_append_left {f : List Char} (h : Apart ((v ++ f) :: ws)) : Apart (f :: ws) := by
  intro p hp hmark
  have hchain := h p hp hmark
  cases ws with
  | nil => simp
  | cons u ws =>
    rw [isChain_cons_cons, Separator.glues_eq_false_iff] at hchain ⊢
    refine ⟨⟨fun hafter => ?_, hchain.1.2⟩, hchain.2⟩
    have hnot := hchain.1.1 hafter
    have hsimple := (simple_and_keeps hp hmark).1
    rw [← Bool.not_eq_true, hsimple.endsAt_iff] at hnot ⊢
    exact fun hsuffix => hnot (hsuffix.trans (suffix_append _ _))

lemma IsComment.words (h : IsComment t) : ∃ vs, CommentWords t vs := by
  obtain ⟨line, -, htidied⟩ := h
  have hne : tidied line ≠ [] := by simp [htidied]
  obtain ⟨ws, hws⟩ := tidy_of_ne_nil hne
  obtain ⟨w, rest, rfl⟩ := exists_cons_of_ne_nil hws.spells.ne_nil
  have hword := hws.spells.word
  have hjoin : join [' '] (w :: rest) = "//".toList ++ t := hws.eq_join.symm.trans htidied
  have hlast : ∀ c ∈ t.getLast?, isBlank c = false := by
    intro c hc
    have hne : t ≠ [] := by
      rintro rfl
      simp at hc
    refine hws.last c ?_
    rwa [htidied, getLast?_append_of_ne_nil _ hne]
  obtain ⟨f, rfl⟩ : "//".toList <+: w := by
    have hpre : "//".toList <+: join [' '] (w :: rest) := ⟨t, hjoin.symm⟩
    cases rest with
    | nil => simpa [join] using hpre
    | cons v rest =>
      rw [join_cons w (by simp)] at hpre
      exact prefix_of_prefix_append (by simp) hpre
  have hrest : ∀ v ∈ rest, Word v := fun v hv => hword v (mem_cons_of_mem _ hv)
  have hf : ' ' ∉ f := fun hmem => (hword _ mem_cons_self).no_space (mem_append_right _ hmem)
  have happart : Apart (f :: rest) := hws.apart.of_append_left
  -- The first word is what follows the slashes, if anything follows them.
  by_cases hnil : f = []
  · subst hnil
    refine ⟨rest, hrest, happart.tail, hlast, ?_⟩
    cases rest with
    | nil => exact .inl (by simpa [join] using hjoin.symm)
    | cons v rest =>
      rw [join_cons _ (by simp), append_nil] at hjoin
      exact .inr ⟨by simp, (append_cancel_left hjoin).symm⟩
  · refine ⟨f :: rest, ?_, happart, hlast, .inl ?_⟩
    · rw [forall_mem_cons]
      exact ⟨⟨hnil, hf⟩, hrest⟩
    · have hslashes : join [' '] (("//".toList ++ f) :: rest) = "//".toList ++ join [' '] (f :: rest) :=
        join_modifyHead (cons_ne_nil f rest) _
      exact (append_cancel_left (hslashes.symm.trans hjoin)).symm

lemma dropSpaces_join (hword : ∀ w ∈ ws, Word w) : dropSpaces (join [' '] ws) = join [' '] ws := by
  cases ws with
  | nil => rfl
  | cons w ws =>
    obtain ⟨c, hc, hne⟩ := (Spells.of_words (by simp) hword).solid
    rw [eq_cons_of_mem_head? hc, dropSpaces_cons hne]

lemma CommentWords.dropSpaces_eq (h : CommentWords t vs) : dropSpaces t = join [' '] vs := by
  rcases h.eq with rfl | ⟨-, rfl⟩
  · exact dropSpaces_join h.word
  · have hspace := dropSpaces_spaces_append 1 (join [' '] vs)
    exact hspace.trans (dropSpaces_join h.word)

lemma CommentWords.spells (h : CommentWords t vs) (hvs : vs ≠ []) :
    Spells ("//".toList :: vs) ("//".toList ++ ([' '] ++ t)) := by
  have hslashes : Word "//".toList := ⟨by decide, by decide⟩
  have hspells := Spells.of_words hvs h.word
  rcases h.eq with rfl | ⟨-, rfl⟩
  · exact hspells.cons 0 hslashes
  · exact hspells.cons 1 hslashes

lemma tidied_comment (h : IsComment t) :
    ∃ t', tidied ("//".toList ++ ([' '] ++ t)) = "//".toList ++ t' ∧
      dropSpaces t' = equals.drop (dropSpaces t) := by
  obtain ⟨vs, hvs⟩ := h.words
  rw [hvs.dropSpaces_eq]
  by_cases hnil : vs = []
  · subst hnil
    obtain rfl : t = [] := by simpa [join] using hvs.eq
    have htrim : trim ("//".toList ++ ([' '] ++ [])) = "//".toList := by decide
    have hspells : Spells ["//".toList] (trim ("//".toList ++ ([' '] ++ []))) := by
      rw [htrim]
      exact .last ⟨by decide, by decide⟩
    refine ⟨[], ?_, rfl⟩
    rw [tidied_of_spells hspells, merged_eq_self (by simp)]
    rfl
  · have hspells := hvs.spells hnil
    have hspells' := Spells.of_words hnil hvs.word
    have hne : t ≠ [] := by
      rintro rfl
      obtain ⟨c, hc, -⟩ := hspells'.solid
      rw [← hvs.dropSpaces_eq] at hc
      simp [dropSpaces] at hc
    have htrim : trim ("//".toList ++ ([' '] ++ t)) = "//".toList ++ ([' '] ++ t) := by
      refine trim_eq_self ?_ ?_
      · rintro _ ⟨rfl⟩
        decide
      · rw [← append_assoc, getLast?_append_of_ne_nil _ hne]
        exact hvs.last
    have hslashed : Slashed (merged separators ("//".toList :: vs)) (merged separators vs) :=
      slashed_merged (fun _ hp => hp) (.inl rfl)
    have hmerge : merged separators vs = merge equals.glues vs := merged_apart hvs.word hvs.apart
    have hmerged := (hspells'.drop equals).word
    rw [hmerge] at hslashed
    rw [tidied_of_spells (by rwa [htrim]), drop_join equals hnil hvs.word]
    rcases hslashed with heq | ⟨hne, heq⟩ <;> rw [heq]
    · have hspace := dropSpaces_spaces_append 1 (join [' '] (merge equals.glues vs))
      have hmerge_ne := (hspells'.drop equals).ne_nil
      exact ⟨_, join_cons _ hmerge_ne, hspace.trans (dropSpaces_join hmerged)⟩
    · exact ⟨_, join_modifyHead hne _, dropSpaces_join hmerged⟩

end GadgetCircuits.Qasm

import GadgetCircuits.Proofs.QasmText
import GadgetCircuits.Proofs.QasmWiring

/-!
Programs that are read, written and read again. The second reading gives the same statements unless a `CX`
gate occurs, which is written without its comma, or a space is lost beside a `==`. What has been read has
its version first, declares registers once and before their use, and has operands of the nature and size
that are needed.
-/

open List

namespace GadgetCircuits.Qasm

open Text Statement

variable {rs rs' : Registers} {inner : Bool} {s t : Statement} {line : List Char}
  {acc acc' : List Statement}
variable {lines : List (List Char)} {ss : List Statement}

namespace Statement

variable (s)

lemma canonical_canonical : s.canonical.canonical = s.canonical := by
  induction s with
  | comment t =>
    have htrim : trimLeft (trimLeft t.toList) = trimLeft t.toList :=
      dropWhile_idempotent isBlank t.toList
    simp [canonical, htrim]
  | guarded r v s ih => simp [canonical, ih]
  | _ => simp [canonical]

lemma guards_canonical : s.canonical.guards = s.guards := by
  induction s with
  | guarded r v s ih => simp [canonical, guards, ih]
  | _ => rfl

lemma registers_canonical : s.canonical.registers = s.registers := by
  induction s with
  | guarded r v s ih => simp [canonical, registers, ih]
  | _ => rfl

end Statement

lemma length_close (ws : List (List Char)) : (close ws).length = ws.length := by
  induction ws with
  | nil => rfl
  | cons w ws ih =>
    cases ws with
    | nil => rfl
    | cons v ws => exact congrArg (· + 1) ih

lemma Statement.Fits.length_words (h : s.Fits rs inner) (hcx : s.hasCX = false) :
    s.words.length = s.guards + 2 := by
  induction s generalizing inner with
  | comment t => exact h.elim
  | cx c t => cases hcx
  | guarded r v s ih => exact congrArg (· + 1) (ih h.2.2.2 hcx)
  | _ => rfl

lemma Statement.Fits.compact_of_hasCX (h : s.Fits rs inner) (hcx : s.hasCX) : s.Compact := by
  induction s generalizing inner with
  | guarded r v s ih =>
    refine ⟨ih h.2.2.2 hcx, fun hpre => ?_⟩
    obtain ⟨n, ts, rfl, -⟩ := equals_start h.2.2.2 hpre
    cases hcx
  | cx c t => trivial
  | _ => cases hcx

lemma GateName.plain_of_equals {plain : Bool} {name : List Char} (h : GateName inner plain name)
    (hmem : '=' ∈ name) : plain := by
  rw [← Bool.not_eq_false]
  intro hplain
  exact (h.named hplain).notMem (by decide) hmem

lemma Statement.Fits.merge_comma (hrs : ∀ r ∈ rs, r.Proper) (h : s.Fits rs inner)
    (hloose : ¬ s.Compact ∨ equals.mark <+: (s.text.getD "").toList) :
    merge comma.glues s.printed = close s.words := by
  have hcomma : comma ∈ separators := mem_cons_self
  induction s generalizing inner with
  | gate n ts ps =>
    obtain ⟨hne, hts, -, hname⟩ := id h
    have hps : ps.isEmpty := by
      refine hname.plain_of_equals ?_
      rcases hloose with hend | hpre
      · have hsuffix := endsAt_suffix equals.ne_nil (Bool.not_eq_false _ ▸ hend)
        exact hsuffix.subset (by simp [equals])
      · obtain ⟨_, _, heq, hstart⟩ := h.equals_start hpre
        cases heq
        exact hstart.subset (by simp [equals])
    have hend : endsAt comma.mark (n.toList ++ (join [','] [] ++ [])) = false := by
      simpa [join] using hname.ends comma hcomma (by decide) rfl
    have hstart : ¬ comma.mark <+: [] ++ (join [','] (texts ts) ++ [';']) :=
      firmStart_texts hrs hne hts [';'] comma hcomma rfl
    have hlists := merge_lists hend hstart
    simpa [printed, words, gateWord, hps, listWords, close, join] using hlists
  | guarded r v s ih =>
    have hs : s.Fits rs true := h.2.2.2
    have hbody : merge comma.glues s.printed = close s.words := by
      refine ih hs ?_
      rcases hloose with hnot | hpre
      · by_contra hand
        exact hnot ⟨by tauto, by tauto⟩
      · obtain ⟨_, _, heq, -⟩ := h.equals_start hpre
        cases heq
    have hglue : ∀ w ∈ s.printed.head?, comma.glues (conditionWord r v.val) w = false := by
      intro w hw
      rw [Separator.glues_eq_false_iff]
      refine ⟨conditionWord_firmEnd r v.val comma hcomma, fun hbefore hpre => ?_⟩
      obtain ⟨x, hx⟩ : ∃ x, x ∈ (close s.words).head? := by
        obtain ⟨u, us, hwords, hus, -⟩ := hs.words_eq
        exact ⟨u, by rw [hwords, close_cons u hus]; rfl⟩
      have hwx : w <+: x := by
        rw [← hbody, eq_cons_of_mem_head? hw] at hx
        exact prefix_of_mem_merge_head w _ x hx
      exact hs.starts x hx comma hcomma (by decide) hbefore (hpre.trans hwx)
    have happend : merge comma.glues ([conditionWord r v.val] ++ s.printed) =
        [conditionWord r v.val] ++ merge comma.glues s.printed :=
      merge_append (by simpa using hglue)
    rw [printed, words, close_cons _ hs.words_ne_nil, ← hbody]
    exact happend
  | comment t => exact h.elim
  | _ =>
    rcases hloose with hnot | hpre
    · exact absurd trivial hnot
    · obtain ⟨_, _, heq, -⟩ := h.equals_start hpre
      cases heq

lemma Statement.Fits.not_isChain (h : s.Fits rs inner) (hloose : ¬ s.Compact) :
    ¬ (close s.words).IsChain fun w v => equals.glues w v = false := by
  induction s generalizing inner with
  | comment t => exact h.elim
  | gate n ts ps =>
    have hend : endsAt equals.mark n.toList := by simpa [Compact] using hloose
    have hps : ps.isEmpty :=
      h.2.2.2.plain_of_equals ((endsAt_suffix equals.ne_nil hend).subset (by simp [equals]))
    have hglue : equals.glues n.toList (join [','] (texts ts) ++ [';']) := by
      rw [Separator.glues, hend]
      rfl
    simp [words, gateWord, hps, close, hglue]
  | guarded r v s ih =>
    have hs : s.Fits rs true := h.2.2.2
    obtain ⟨w, ws, hwords, hws, -⟩ := hs.words_eq
    rw [words, close_cons _ hs.words_ne_nil]
    intro hchain
    by_cases hcompact : s.Compact
    · -- The text begins with a `==`, which is joined to the condition.
      have hpre : equals.mark <+: (s.text.getD "").toList := by
        by_contra hnot
        exact hloose ⟨hcompact, hnot⟩
      obtain ⟨n, ts, rfl, hname⟩ := hs.equals_start hpre
      have hglue : equals.glues (conditionWord r v.val) n.toList := by
        rw [Separator.glues, List.isPrefixOf_iff_prefix.mpr hname]
        simp [equals]
      simp [words, gateWord, close, hglue] at hchain
    · exact ih hs hcompact hchain.tail
  | _ => exact absurd trivial hloose

lemma Statement.Fits.length_merged_lt (hrs : ∀ r ∈ rs, r.Proper) (h : s.Fits rs inner)
    (hloose : ¬ s.Compact) : (merged separators s.printed).length < s.guards + 2 := by
  have hcx : s.hasCX = false := by
    rw [← Bool.not_eq_true]
    exact fun hcx => hloose (h.compact_of_hasCX hcx)
  rw [separators, merged, foldl_cons, h.merge_comma hrs (.inl hloose), foldl_cons]
  calc (merged (arrow :: brackets) (merge equals.glues (close s.words))).length
      ≤ (merge equals.glues (close s.words)).length := length_merged_le _ _
    _ < (close s.words).length := length_merge_lt (h.not_isChain hloose)
    _ = s.guards + 2 := by rw [length_close, h.length_words hcx]

lemma Statement.Fits.readStatement_cx (h : s.Fits rs inner) (hcx : s.hasCX)
    (x : Statement × Registers) : readStatement rs' s.words ≠ .ok x := by
  induction s generalizing inner x with
  | cx c t => simp [words, readStatement, operand, Except.map, bind, Except.bind]
  | guarded r v s ih =>
    obtain ⟨hkey, hu, hif⟩ := conditionWord_notMem_keywords r v.val []
    rw [append_nil] at hkey hu hif
    have hempty : s.words.isEmpty = false := by simpa using words_ne_nil h.2.2.2
    rw [words, readStatement_cons hkey hu, hif, if_pos rfl, hempty, if_neg Bool.false_ne_true]
    intro hread
    obtain ⟨_, -, hread⟩ := bind_eq_ok.mp hread
    obtain ⟨body, hbody, -⟩ := bind_eq_ok.mp hread
    exact ih h.2.2.2 hcx body hbody
  | _ => cases hcx

def Statement.FitsLine (rs : Registers) (s : Statement) : Prop :=
  (∃ t, s = .comment t ∧ IsComment t.toList) ∨ s.Fits rs false

lemma inLine_eq_ok {α : Type} {x : Except Error α} {a : α} : inLine line x = .ok a ↔ x = .ok a := by
  cases x with
  | ok a => rfl
  | error e =>
    rw [inLine]
    split_ifs <;> simp

lemma readLine_eq_ok (hline : '\n' ∉ line) (h : readLine (acc, rs) line = .ok (acc', rs')) :
    acc' = acc ∧ rs' = rs ∨ ∃ s, acc' = acc ++ [s] ∧ rs' = rs ++ s.declared ∧ s.FitsLine rs ∧
        (s.Fits rs false → s.guards + 2 ≤ (words (tidied line)).length) := by
  rw [readLine] at h
  dsimp only at h
  split at h
  · next t ht =>
    cases h
    rw [after?_eq_some] at ht
    refine .inr ⟨_, rfl, by simp [declared], .inl ⟨_, rfl, line, hline, ?_⟩, False.elim⟩
    rw [ht]
    simp
  · next hcomment =>
    rw [after?_eq_none] at hcomment
    split_ifs at h with hskip
    · cases h
      exact .inl ⟨rfl, rfl⟩
    · have hskip' : tidied line ≠ [] ∧ ¬ "gate".toList <+: tidied line := by
        simpa [List.isPrefixOf_iff_prefix] using hskip
      split at h
      · cases h
      · next body hbody =>
        rw [before?_eq_some] at hbody
        obtain ⟨⟨s, rs''⟩, hread, h⟩ := bind_eq_ok.mp h
        cases h
        rw [inLine_eq_ok] at hread
        obtain ⟨ws, hws⟩ := tidy_of_ne_nil hskip'.1
        obtain ⟨hword, hapart, hsubset, hfirst, hlength⟩ := hws.body hbody
        have hopening : ∀ w ∈ (words body).head?, Opening false w := by
          intro w hw
          have hpre := hfirst w hw
          have hw' := (hword w (mem_of_mem_head? hw)).ne_nil
          refine ⟨by simp, fun _ => ⟨?_, fun hk => hcomment (hk.trans hpre),
            fun hk => hskip'.2 (hk.trans hpre)⟩⟩
          rw [head?_eq_of_isPrefix hpre hw']
          exact hws.head
        obtain ⟨hfits, rfl, hguards⟩ :=
          readStatement_fits hword (fun hmem => hline (hsubset hmem)) hapart hopening hread
        exact .inr ⟨s, rfl, rfl, .inr hfits, fun _ => hguards.trans hlength⟩

lemma trimLeft_dropSpaces (t : List Char) : trimLeft (dropSpaces t) = trimLeft t := by
  induction t with
  | nil => rfl
  | cons c t ih =>
    by_cases hc : c = ' '
    · subst hc
      have hspaces := dropSpaces_spaces_append 1 t
      exact (congrArg trimLeft hspaces).trans (ih.trans rfl)
    · rw [dropSpaces_cons hc]

lemma readLine_comment {t : String} (h : IsComment t.toList) (rs : Registers)
    (acc : List Statement) :
    ∃ t' : String, readLine (acc, rs) ((comment t).text.getD "").toList =
        .ok (acc ++ [.comment t'], rs) ∧
      trimLeft t'.toList = trimLeft (equals.drop (dropSpaces t.toList)) := by
  obtain ⟨t', htidied, hdrop⟩ := tidied_comment h
  have htext : ((comment t).text.getD "").toList = "//".toList ++ ([' '] ++ t.toList) := by
    simp [text]
  refine ⟨String.ofList t', ?_, ?_⟩
  · rw [readLine, htext, htidied, after?_eq_some.mpr rfl]
  · rw [String.toList_ofList, ← hdrop, trimLeft_dropSpaces]

lemma mem_join {c : Char} {ws : List (List Char)} (h : c ∈ join [' '] ws) :
    c = ' ' ∨ c ∈ ws.flatten := by
  induction ws with
  | nil => simp [join] at h
  | cons w ws ih =>
    by_cases hws : ws = []
    · subst hws
      exact .inr (by simpa [join] using h)
    · rw [join_cons w hws, mem_append, mem_append, mem_singleton] at h
      rw [flatten_cons, mem_append]
      tauto

namespace Statement.FitsLine

variable (hrs : ∀ r ∈ rs, r.Proper)
include hrs

lemma readLine_text (h : s.FitsLine rs) (hcx : s.hasCX = false)
    (hcompact : s.Compact) (acc : List Statement) :
    ∃ t, readLine (acc, rs) (s.text.getD "").toList = .ok (acc ++ [t], rs ++ s.declared) ∧
      t.canonical = s.canonical := by
  rcases h with ⟨t, rfl, ht⟩ | h
  · obtain ⟨t', hread, htrim⟩ := readLine_comment ht rs acc
    refine ⟨.comment t', by simpa [declared] using hread, ?_⟩
    rw [canonical, canonical, htrim.trans hcompact]
  · refine ⟨s.canonical, ?_, s.canonical_canonical⟩
    rw [h.readLine_text hrs hcompact, h.readStatement_words hrs hcx]
    rfl

lemma readLine_cx (h : s.FitsLine rs) (hcx : s.hasCX)
    (a x : List Statement × Registers) : readLine a (s.text.getD "").toList ≠ .ok x := by
  rcases h with ⟨t, rfl, -⟩ | h
  · cases hcx
  · rw [h.readLine_text hrs (h.compact_of_hasCX hcx)]
    intro hread
    obtain ⟨y, hy, -⟩ := bind_eq_ok.mp hread
    exact h.readStatement_cx hcx y (inLine_eq_ok.mp hy)

lemma of_readLine (h : s.FitsLine rs) {rs₁ rs₂ : Registers}
    (hline : '\n' ∉ (s.text.getD "").toList)
    (hread : readLine (acc, rs₁) (s.text.getD "").toList = .ok (acc ++ [t], rs₂))
    (heq : t.canonical = s.canonical) : s.hasCX = false ∧ s.Compact := by
  refine ⟨?_, ?_⟩
  · rw [← Bool.not_eq_true]
    exact fun hcx => h.readLine_cx hrs hcx _ _ hread
  rcases h with ⟨u, rfl, hu⟩ | h
  · obtain ⟨u', hread', htrim⟩ := readLine_comment hu rs₁ acc
    rw [hread'] at hread
    obtain ⟨rfl, -⟩ : .comment u' = t ∧ rs₁ = rs₂ := by simpa using hread
    rw [canonical, canonical, comment.injEq, String.ofList_inj] at heq
    exact htrim.symm.trans heq
  · by_contra hloose
    have hlt := h.length_merged_lt hrs hloose
    have hspells := spells_merged separators (h.spells hrs)
    rcases readLine_eq_ok hline hread with ⟨hnone, -⟩ | ⟨t', hacc, -, hfits, hguards⟩
    · simp at hnone
    obtain rfl : t = t' := by simpa using hacc
    rcases hfits with ⟨u, rfl, -⟩ | hfits
    · cases s with
      | comment v => exact h
      | _ => cases heq
    · have hle := hguards hfits
      rw [h.tidied_text hrs, words_join_of_word hspells.ne_nil hspells.word, ← t.guards_canonical, heq,
        s.guards_canonical] at hle
      omega

lemma no_newline (h : s.FitsLine rs) : '\n' ∉ (s.text.getD "").toList := by
  rcases h with ⟨t, rfl, line, hline, htidied⟩ | h
  · have hne : tidied line ≠ [] := by simp [htidied]
    obtain ⟨ws, hws⟩ := tidy_of_ne_nil hne
    intro hmem
    have hmem' : '\n' ∈ join [' '] ws := by
      rw [← hws.eq_join, htidied]
      simpa [text] using hmem
    rcases mem_join hmem' with hspace | hflatten
    · exact absurd hspace (by decide)
    · exact hline (hws.subset hflatten)
  · obtain ⟨t, ht, hjoin⟩ := h.text_eq
    rw [ht, Option.getD_some, hjoin]
    intro hmem
    rcases mem_join hmem with hspace | hflatten
    · exact absurd hspace (by decide)
    · obtain ⟨w, hw, hmem⟩ := mem_flatten.mp hflatten
      exact (h.clean hrs w hw).2.line hmem

end Statement.FitsLine

lemma Statement.Fits.proper_declared (h : s.Fits rs inner) : ∀ r ∈ s.declared, r.Proper := by
  induction s generalizing inner with
  | declare r => simpa [declared] using h.1
  | guarded r v s ih => exact ih h.2.2.2
  | _ => simp [declared]

lemma Statement.FitsLine.proper (hrs : ∀ r ∈ rs, r.Proper) (h : s.FitsLine rs) :
    ∀ r ∈ rs ++ s.declared, r.Proper := by
  rw [forall_mem_append]
  refine ⟨hrs, ?_⟩
  rcases h with ⟨t, rfl, -⟩ | h
  · simp [declared]
  · exact h.proper_declared

def FitsAll : Registers → List Statement → Prop
  | _, [] => True
  | rs, s :: ss => s.FitsLine rs ∧ FitsAll (rs ++ s.declared) ss

lemma foldlM_readLine (hlines : ∀ line ∈ lines, '\n' ∉ line)
    (h : lines.foldlM readLine (acc, rs) = .ok (acc', rs')) :
    ∃ ss, acc' = acc ++ ss ∧ FitsAll rs ss ∧ ss.length ≤ lines.length ∧
      (ss.length = lines.length → Forall₂ (fun line s => ∃ acc rs rs',
        readLine (acc, rs) line = .ok (acc ++ [s], rs')) lines ss) := by
  induction lines generalizing acc rs with
  | nil =>
    cases h
    exact ⟨[], by simp, trivial, le_rfl, fun _ => .nil⟩
  | cons line lines ih =>
    have htail := fun l hl => hlines l (mem_cons_of_mem _ hl)
    rw [foldlM_cons] at h
    obtain ⟨⟨acc₁, rs₁⟩, hread, hrest⟩ := bind_eq_ok.mp h
    obtain ⟨ss, rfl, hss, hle, hforall⟩ := ih htail hrest
    rcases readLine_eq_ok (hlines line mem_cons_self) hread with
      ⟨rfl, rfl⟩ | ⟨s, rfl, rfl, hs, -⟩
    · grind
    · refine ⟨s :: ss, by simp, ⟨hs, hss⟩, Nat.succ_le_succ hle, fun heq => ?_⟩
      exact .cons ⟨acc, rs, _, hread⟩ (hforall (Nat.succ.inj heq))

lemma FitsAll.foldlM_text (hrs : ∀ r ∈ rs, r.Proper) (h : FitsAll rs ss)
    (hss : ∀ s ∈ ss, s.hasCX = false ∧ s.Compact) (acc : List Statement) :
    ∃ ts rs', (ss.map fun s => (s.text.getD "").toList).foldlM readLine (acc, rs) =
        .ok (acc ++ ts, rs') ∧ ts.map canonical = ss.map canonical := by
  induction ss generalizing rs acc with
  | nil => exact ⟨[], rs, by simp [pure, Except.pure], rfl⟩
  | cons s ss ih =>
    obtain ⟨hs, htail⟩ := h
    obtain ⟨hcx, hcompact⟩ := hss s mem_cons_self
    obtain ⟨t, hread, ht⟩ := hs.readLine_text hrs hcx hcompact acc
    obtain ⟨ts, rs', hrest, hts⟩ :=
      ih (hs.proper hrs) htail (fun u hu => hss u (mem_cons_of_mem _ hu)) (acc ++ [t])
    refine ⟨t :: ts, rs', ?_, by simp [ht, hts]⟩
    rw [map_cons, foldlM_cons, hread, ok_bind, hrest]
    simp

lemma FitsAll.of_forall₂ {ss ts : List Statement} (hrs : ∀ r ∈ rs, r.Proper) (h : FitsAll rs ss)
    (hread : Forall₂ (fun line t => ∃ acc rs rs', readLine (acc, rs) line = .ok (acc ++ [t], rs'))
      (ss.map fun s => (s.text.getD "").toList) ts)
    (heq : ts.map canonical = ss.map canonical) :
    ∀ s ∈ ss, s.hasCX = false ∧ s.Compact := by
  induction ss generalizing rs ts with
  | nil => simp
  | cons s ss ih =>
    obtain ⟨hs, htail⟩ := h
    rw [map_cons] at hread
    cases hread with
    | @cons _ t _ ts ht hread =>
      obtain ⟨acc, rs₁, rs₂, ht⟩ := ht
      rw [map_cons, map_cons, List.cons.injEq] at heq
      rw [forall_mem_cons]
      exact ⟨hs.of_readLine hrs (hs.no_newline hrs) ht heq.1, ih (hs.proper hrs) htail hread heq.2⟩

lemma FitsAll.fitsLine (hrs : ∀ r ∈ rs, r.Proper) (h : FitsAll rs ss) :
    ∀ s ∈ ss, ∃ rs', (∀ r ∈ rs', r.Proper) ∧ s.FitsLine rs' := by
  induction ss generalizing rs with
  | nil => simp
  | cons s ss ih =>
    rw [forall_mem_cons]
    exact ⟨⟨rs, hrs, h.1⟩, ih (h.1.proper hrs) h.2⟩

lemma notMem_of_mem_split (c : Char) (t : List Char) : ∀ w ∈ split [c] t, c ∉ w := by
  induction t with
  | nil => simp [split, splitFrom]
  | cons d t ih =>
    by_cases hd : d = c
    · have hsplit : split [c] (d :: t) = [] :: split [c] t := by
        rw [hd]
        exact split_sep_append (by simp) t
      simpa [hsplit] using ih
    · obtain ⟨w, ws, hws⟩ := exists_cons_of_ne_nil (split_ne_nil [c] t)
      rw [hws, forall_mem_cons] at ih
      rw [split_cons (by simpa using Ne.symm hd), hws, modifyHead_cons, forall_mem_cons]
      exact ⟨by simpa [Ne.symm hd] using ih.1, ih.2⟩

lemma split_lines (hne : lines ≠ []) (h : ∀ line ∈ lines, '\n' ∉ line) :
    split ['\n'] (join ['\n'] lines ++ ['\n']) = lines ++ [[]] := by
  induction lines with
  | nil => exact absurd rfl hne
  | cons line lines ih =>
    rw [forall_mem_cons] at h
    have hline : ∀ c ∈ ['\n'].head?, c ∉ line := by simpa using h.1
    by_cases hlines : lines = []
    · subst hlines
      have hsplit : split ['\n'] (line ++ (['\n'] ++ [])) = line :: [[]] :=
        split_append_sep (by simp) hline []
      simpa [join] using hsplit
    · have hjoin : join ['\n'] (line :: lines) ++ ['\n'] =
          line ++ (['\n'] ++ (join ['\n'] lines ++ ['\n'])) := by
        simp [join, intercalate_cons_of_ne_nil hlines]
      rw [hjoin, split_append_sep (by simp) hline, ih hlines h.2, cons_append]

lemma Program.foldlM_split_text {prog : Program}
    (h : ∀ s ∈ prog.statements, '\n' ∉ (s.text.getD "").toList) (a : List Statement × Registers) :
    (split ['\n'] prog.text.toList).foldlM readLine a =
      (prog.statements.map fun s => (s.text.getD "").toList).foldlM readLine a := by
  have htext : prog.text.toList =
      join ['\n'] (prog.statements.map fun s => (s.text.getD "").toList) ++ ['\n'] := by
    simp [Program.text, join, String.toList_intercalate, Function.comp_def]
  rw [htext]
  by_cases hnil : prog.statements = []
  · rw [hnil]
    rfl
  · rw [split_lines (by simpa using hnil) (by simpa using h), foldlM_append]
    exact bind_pure _

namespace Program.Declared

variable {d d' : Declared}

lemma add_canonical : d.add s.canonical = .ok d' ↔ d.add s = .ok d' := by
  have hregisters := s.registers_canonical
  cases s with
  | u a b c q => exact (uses_eq_ok _).trans (uses_eq_ok (.u a b c q)).symm
  | gate n ts ps => exact (uses_eq_ok _).trans (uses_eq_ok (.gate n ts ps)).symm
  | guarded r v s =>
    refine (uses_eq_ok (.guarded r v s.canonical)).trans
      (Iff.trans ?_ (uses_eq_ok (.guarded r v s)).symm)
    rw [← hregisters]
    rfl
  | _ => rfl

lemma foldlM_add_canonical (ss : List Statement) :
    (ss.map canonical).foldlM add d = .ok d' ↔ ss.foldlM add d = .ok d' := by
  induction ss generalizing d with
  | nil => rfl
  | cons s ss ih => simp only [map_cons, foldlM_cons, bind_eq_ok, add_canonical, ih]

end Program.Declared

lemma exists_of_foldlM {α β : Type} {f : β → α → Except Error β} {xs : List α} {b b' : β}
    (h : xs.foldlM f b = .ok b') : ∀ x ∈ xs, ∃ c c', f c x = .ok c' := by
  induction xs generalizing b with
  | nil => simp
  | cons x xs ih =>
    rw [foldlM_cons] at h
    obtain ⟨c, hc, h⟩ := bind_eq_ok.mp h
    rw [forall_mem_cons]
    exact ⟨⟨b, c, hc⟩, ih h⟩

namespace Program

lemma ofText_eq_ok {p : String} {prog : Program} : Program.ofText p = .ok prog ↔
      (∃ rs, (split ['\n'] p.toList).foldlM readLine ([], []) = .ok (prog.statements, rs)) ∧
        ∃ d, prog.statements.foldlM Declared.add {} = .ok d ∧ prog.registers = d.registers := by
  simp only [ofText, ofStatements, bind_eq_ok]
  constructor
  · rintro ⟨⟨ss, rs⟩, hread, d, hd, hprog⟩
    cases hprog
    exact ⟨⟨rs, hread⟩, d, hd, rfl⟩
  · rintro ⟨⟨rs, hread⟩, d, hd, hregisters⟩
    refine ⟨_, hread, d, hd, ?_⟩
    rw [← hregisters]
    rfl

/-- A program that has been read is read again from its text with the same statements, up to full
turns of its angles and blanks before its comments, exactly if it has no `CX` gate and no space
beside a `==`. With a `CX` gate, its text is refused. -/
theorem ofText_text_iff {p : String} {prog : Program} (h : Program.ofText p = .ok prog) :
    ((∃ prog', Program.ofText prog.text = .ok prog' ∧
        prog'.statements.map Statement.canonical = prog.statements.map Statement.canonical) ↔
      ∀ s ∈ prog.statements, s.hasCX = false ∧ s.Compact) ∧
    ((∃ s ∈ prog.statements, s.hasCX = true) → ∃ e, Program.ofText prog.text = .error e) := by
  obtain ⟨⟨rs, hread⟩, d, hd, -⟩ := ofText_eq_ok.mp h
  have hproper : ∀ r ∈ ([] : Registers), r.Proper := by simp
  obtain ⟨ss, hss, hfits, -⟩ := foldlM_readLine (notMem_of_mem_split '\n' p.toList) hread
  rw [nil_append] at hss
  rw [← hss] at hfits
  have hline : ∀ s ∈ prog.statements, '\n' ∉ (s.text.getD "").toList := by
    intro s hs
    obtain ⟨rs', hrs', hs'⟩ := hfits.fitsLine hproper s hs
    exact hs'.no_newline hrs'
  have hlines := foldlM_split_text hline
  refine ⟨⟨?_, ?_⟩, ?_⟩
  · rintro ⟨prog', hprog', heq⟩
    obtain ⟨⟨rs', hread'⟩, -⟩ := ofText_eq_ok.mp hprog'
    rw [hlines] at hread'
    obtain ⟨ts, hts, -, -, hforall⟩ := foldlM_readLine (by simpa using hline) hread'
    rw [nil_append] at hts
    subst hts
    refine hfits.of_forall₂ hproper (hforall ?_) heq
    simpa using congrArg List.length heq
  · intro hall
    obtain ⟨ts, rs', hread', heq⟩ := hfits.foldlM_text hproper hall []
    refine ⟨⟨ts, d.registers⟩, ofText_eq_ok.mpr ⟨⟨rs', ?_⟩, d, ?_, rfl⟩, heq⟩
    · rw [hlines, hread', nil_append]
    · rw [← Declared.foldlM_add_canonical, heq, Declared.foldlM_add_canonical, hd]
  · rintro ⟨s, hs, hcx⟩
    cases hprog' : Program.ofText prog.text with
    | error e => exact ⟨e, rfl⟩
    | ok prog' =>
      obtain ⟨⟨rs', hread'⟩, -⟩ := ofText_eq_ok.mp hprog'
      rw [hlines] at hread'
      obtain ⟨a, x, hx⟩ := exists_of_foldlM hread' _ (mem_map_of_mem hs)
      obtain ⟨rs₁, hrs₁, hs'⟩ := hfits.fitsLine hproper s hs
      exact absurd hx (hs'.readLine_cx hrs₁ hcx a x)

def feedbackText : String :=
  "OPENQASM 2.0;\nqreg q[2];\ncreg c[1];\n//turn\nrz(9*pi/2) q[0];\nif(c==1) x q[1];"

def feedback : Program :=
  let q : Register := ⟨.quantum, "q", ⟨2, false⟩⟩
  let c : Register := ⟨.classical, "c", ⟨1, false⟩⟩
  { statements :=
      [.version, .declare q, .declare c, .comment "turn",
        .gate "rz" [⟨.quantum, q, some ⟨0, false⟩⟩] [⟨9 / 2⟩],
        .guarded c ⟨1, false⟩ (.gate "x" [⟨.quantum, q, some ⟨1, false⟩⟩] [])]
    registers := [q, c] }

theorem ofText_feedback_text :
    Program.ofText feedbackText = .ok feedback ∧
      ∃ prog', Program.ofText feedback.text = .ok prog' ∧
        prog'.statements.map Statement.canonical = feedback.statements.map Statement.canonical := by
  have hread : Program.ofText feedbackText = .ok feedback := rfl
  exact ⟨hread, (ofText_text_iff hread).1.mpr (by decide +kernel)⟩

def entangler : Program :=
  let q : Register := ⟨.quantum, "q", ⟨2, false⟩⟩
  { statements :=
      [.version, .declare q, .cx ⟨.quantum, q, some ⟨0, false⟩⟩ ⟨.quantum, q, some ⟨1, false⟩⟩]
    registers := [q] }

/-- The targets of a `CX` gate are written without a comma, and they cannot be read. -/
theorem ofText_entangler_text :
    Program.ofText "OPENQASM 2.0;\nqreg q[2];\nCX q[0],q[1];" = .ok entangler ∧
      Program.ofText entangler.text = .error (.qasm (.line "CX q[0] q[1]")) :=
  ⟨rfl, rfl⟩

/-- Tidying makes a name of `= ===`, and then it joins the name to its target. -/
example : tidied "= === q;".toList = "==== q;".toList ∧ tidied "==== q;".toList = "====q;".toList := by
  decide +kernel

end Program

/-- A target in a register that is known and has one of some natures. -/
def Target.In (known : Registers) (natures : List Nature) (t : Target) : Prop :=
  t.register ∈ known ∧ t.nature = t.register.nature ∧ t.nature ∈ natures

/-- A statement that needs no register but the known ones, with operands that fit. -/
def Statement.Scoped (known : Registers) : Statement → Prop
  | .version | .load _ | .comment _ => True
  | .declare r => ∀ r' ∈ known, r'.name ≠ r.name
  | .u _ _ _ q | .reset q => q.In known [.quantum]
  | .cx c t => c.In known [.quantum] ∧ t.In known [.quantum] ∧
    (c.pos = none → t.pos = none → c.size = t.size)
  | .measure q b => q.In known [.quantum] ∧ b.In known [.classical] ∧ q.size = b.size
  | .gate _ ts _ => (∀ t ∈ ts, t.In known [.quantum, .classical]) ∧ ∀ t ∈ ts, ∀ u ∈ ts, t.size = u.size
  | .barrier ts => ∀ t ∈ ts, t.In known [.quantum]
  | .guarded r _ s => r ∈ known ∧ r.nature = .classical ∧ s.declared = [] ∧ s.Scoped known

def ScopedAll : Registers → List Statement → Prop
  | _, [] => True
  | known, s :: ss => s.Scoped known ∧ ScopedAll (known ++ s.declared) ss

/-- Comments, and then the version before everything else and nowhere again. -/
def VersionFirst (ss : List Statement) : Prop :=
  (∀ s ∈ ss, ∃ t, s = .comment t) ∨ ∃ comments rest, ss = comments ++ .version :: rest ∧
    (∀ s ∈ comments, ∃ t, s = .comment t) ∧ .version ∉ rest

lemma Target.Fits.isIn {t : Target} {natures : List Nature} (h : t.Fits rs natures) :
    t.In rs natures := by
  obtain ⟨k, hk, hfind⟩ := exists_of_findSome?_eq_some h.found
  obtain ⟨hmem, hnature, -⟩ := Registers.find?_eq_some hfind
  exact ⟨hmem, h.nature, h.nature ▸ hnature ▸ hk⟩

lemma size_eq_of_checkSizes {ts : List Target} (h : checkSizes ts = .ok ()) :
    ∀ t ∈ ts, ∀ u ∈ ts, t.size = u.size := by
  cases ts with
  | nil => simp
  | cons t ts =>
    have hall : ∀ u ∈ t :: ts, u.size = t.size := by
      rw [checkSizes] at h
      split at h
      · cases h
      · simp_all
    exact fun u hu v hv => (hall u hu).trans (hall v hv).symm

lemma Statement.Fits.declared_eq_nil (h : s.Fits rs inner)
    (hknown : ∀ r ∈ s.registers, ∃ r' ∈ rs, r'.name = r.name) : s.declared = [] := by
  induction s generalizing inner with
  | declare r =>
    obtain ⟨r', hr', hname⟩ := hknown r mem_cons_self
    exact absurd hname (h.2 r' hr')
  | guarded r v s ih => exact ih h.2.2.2 fun q hq => hknown q (mem_append_left _ hq)
  | _ => rfl

lemma Statement.Fits.scoped (h : s.Fits rs inner) (hnone : (∃ r, s = .declare r) ∨ s.declared = []) :
    s.Scoped rs := by
  induction s generalizing inner with
  | version | load => trivial
  | comment => exact h.elim
  | declare r => exact h.2
  | u | reset => exact Target.Fits.isIn h
  | cx c t => exact ⟨h.1.isIn, h.2.1.isIn, h.2.2⟩
  | measure q b =>
    exact ⟨h.1.isIn, h.2.1.isIn, size_eq_of_checkSizes h.2.2 q (by simp) b (by simp)⟩
  | gate n ts ps => exact ⟨fun t ht => (h.2.1 t ht).isIn, size_eq_of_checkSizes h.2.2.1⟩
  | barrier ts => exact fun t ht => (h.2 t ht).isIn
  | guarded r v s ih =>
    obtain ⟨hfind, -, -, hbody⟩ := h
    obtain ⟨hmem, hnature, -⟩ := Registers.find?_eq_some hfind
    have hdeclared : s.declared = [] := hnone.resolve_left fun ⟨_, hr⟩ => by cases hr
    exact ⟨hmem, hnature, hdeclared, ih hbody (.inr hdeclared)⟩

namespace Program

open Declared

variable {d d' : Declared}

/-- The registers that the lines have declared are those that the program knows. -/
theorem add_scoped (hline : s.FitsLine d.registers) (h : d.add s = .ok d') :
    s.Scoped d.registers ∧ d'.registers = d.registers ++ s.declared := by
  rcases hline with ⟨t, rfl, -⟩ | hfits
  · cases h
    exact ⟨trivial, by simp [declared]⟩
  · rcases add_cases h with ⟨rfl, -, rfl⟩ | ⟨⟨t, rfl⟩, -⟩ | ⟨-, -, ⟨rfl, huses⟩ | ⟨r, rfl, -, rfl⟩⟩
    · exact ⟨trivial, by simp [declared]⟩
    · exact hfits.elim
    · have hnone : s.declared = [] := by
        refine hfits.declared_eq_nil fun r hr => ?_
        obtain ⟨r', hr', -⟩ := huses r hr
        exact ⟨r', mem_of_find?_eq_some hr', by simpa using find?_some hr'⟩
      exact ⟨hfits.scoped (.inr hnone), by simp [hnone]⟩
    · exact ⟨hfits.scoped (.inl ⟨r, rfl⟩), rfl⟩

lemma addAll_scoped (hfits : FitsAll d.registers ss) (h : ss.foldlM Declared.add d = .ok d') :
    ScopedAll d.registers ss ∧ d'.registers = d.registers ++ ss.flatMap declared := by
  induction ss generalizing d with
  | nil =>
    cases h
    exact ⟨trivial, by simp⟩
  | cons s ss ih =>
    rw [foldlM_cons] at h
    obtain ⟨d₁, hs, hrest⟩ := bind_eq_ok.mp h
    obtain ⟨hscoped, hregisters⟩ := add_scoped hfits.1 hs
    obtain ⟨htail, hall⟩ := ih (hregisters ▸ hfits.2) hrest
    exact ⟨⟨hscoped, hregisters ▸ htail⟩, by rw [hall, hregisters, flatMap_cons, append_assoc]⟩

lemma addAll_version (h : ss.foldlM Declared.add d = .ok d') :
    if d.version then .version ∉ ss else VersionFirst ss := by
  induction ss generalizing d with
  | nil =>
    split
    · exact not_mem_nil
    · exact .inl (by simp)
  | cons s ss ih =>
    rw [foldlM_cons] at h
    obtain ⟨d₁, hs, hrest⟩ := bind_eq_ok.mp h
    have htail := ih hrest
    rcases add_cases hs with ⟨rfl, hd, rfl⟩ | ⟨⟨t, rfl⟩, rfl⟩ | ⟨hd, hs', hd₁⟩
    · rw [if_neg (by simp [hd])]
      exact .inr ⟨[], ss, rfl, by simp, htail⟩
    · split
      · rename_i hd
        rw [if_pos hd] at htail
        simpa using htail
      · rename_i hd
        rw [if_neg hd] at htail
        rcases htail with hall | ⟨comments, rest, rfl, hall, hrest⟩
        · exact .inl (forall_mem_cons.mpr ⟨⟨t, rfl⟩, hall⟩)
        · exact .inr ⟨_ :: comments, rest, rfl, forall_mem_cons.mpr ⟨⟨t, rfl⟩, hall⟩, hrest⟩
    · grind

/-- A program that has been read starts with the version, declares its registers once, and uses them
only after that, with the right natures and sizes. -/
theorem ofText_scoped {p : String} {prog : Program} (h : Program.ofText p = .ok prog) :
    VersionFirst prog.statements ∧ (prog.registers.map Register.name).Nodup ∧
      prog.registers = prog.statements.flatMap Statement.declared ∧ ScopedAll [] prog.statements := by
  obtain ⟨⟨rs, hread⟩, d, hd, hregisters⟩ := ofText_eq_ok.mp h
  obtain ⟨ss, hss, hfits, -⟩ := foldlM_readLine (notMem_of_mem_split '\n' p.toList) hread
  rw [nil_append] at hss
  rw [← hss] at hfits
  obtain ⟨hscoped, hall⟩ := addAll_scoped (d := {}) hfits hd
  have hdistinct : Distinct {} := nodup_nil
  refine ⟨addAll_version hd, ?_, hregisters.trans hall, hscoped⟩
  rw [hregisters]
  exact (hdistinct.addAll hd).1

theorem ofText_feedback_scoped : Program.ofText feedbackText = .ok feedback ∧
    VersionFirst feedback.statements ∧ ScopedAll [] feedback.statements := by
  have hread : Program.ofText feedbackText = .ok feedback := rfl
  obtain ⟨hversion, -, -, hscoped⟩ := ofText_scoped hread
  exact ⟨hread, hversion, hscoped⟩

/-- A position beyond the end of its register is accepted. -/
theorem ofText_beyond : Program.ofText "OPENQASM 2.0;\nqreg q[1];\nreset q[3];" =
    .ok ⟨[.version, .declare (qreg "q" 1), .reset ((qreg "q" 1).at 3)], [qreg "q" 1]⟩ ∧
      ¬ 3 < (qreg "q" 1).size.val :=
  ⟨rfl, by decide⟩

end Program

end GadgetCircuits.Qasm

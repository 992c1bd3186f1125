import GadgetCircuits.Proofs.QasmParts

/-!
What is written of a statement, word by word, and what tidying makes of it.
-/

open List hiding merge

namespace GadgetCircuits.Qasm

variable {w : List Char} {ps : List Separator} (start : List Char) (items : List (List Char))
variable (stop : List Char) {ws : List (List Char)}

open Text Separator

def listWords (start : List Char) : List (List Char) → List Char → List (List Char)
  | [], stop => [start ++ stop]
  | [x], stop => [start ++ (x ++ stop)]
  | x :: y :: xs, stop => (start ++ (x ++ [','])) :: listWords [] (y :: xs) stop

lemma listWords_ne_nil : listWords start items stop ≠ [] := by
  match items with
  | [] | [_] | _ :: _ :: _ => simp [listWords]

lemma join_listWords :
    join [' '] (listWords start items stop) = start ++ (join ", ".toList items ++ stop) := by
  induction items generalizing start with
  | nil => simp [listWords, join]
  | cons x items ih =>
    cases items with
    | nil => simp [listWords, join]
    | cons y items =>
      have htail := ih []
      rw [join, join] at htail
      rw [listWords, join, intercalate_cons_of_ne_nil (listWords_ne_nil _ _ _), htail, join,
        intercalate_cons_cons]
      simp

lemma endsAt_comma_concat (w : List Char) : endsAt comma.mark (w ++ [',']) := by
  have hsimple : comma.Simple := by simp [Simple, comma]
  rw [hsimple.endsAt_iff]
  exact suffix_append _ _

lemma merge_listWords :
    merge comma.glues (listWords start items stop) = [start ++ (join [','] items ++ stop)] := by
  induction items generalizing start with
  | nil => simp [listWords, merge, join]
  | cons x items ih =>
    cases items with
    | nil => simp [listWords, merge, join]
    | cons y items =>
      have htail := ih []
      obtain ⟨w, ws, hw⟩ := exists_cons_of_ne_nil (listWords_ne_nil [] (y :: items) stop)
      have hglue : comma.glues (start ++ (x ++ [','])) w := by
        rw [glues, ← append_assoc, endsAt_comma_concat]
        rfl
      rw [listWords, hw, merge, hglue, if_pos rfl, ← hw, htail]
      simp [join, intercalate_cons_cons]

def FirmEnd (w : List Char) : Prop :=
  ∀ p ∈ separators, p.after = true → endsAt p.mark w = false

def FirmStart (w : List Char) : Prop :=
  ∀ p ∈ separators, p.before = true → ¬ p.mark <+: w

lemma glues_of_firm {v : List Char} (hw : FirmEnd w) (hv : FirmStart v) {p : Separator}
    (hp : p ∈ separators) : p.glues w v = false :=
  (p.glues_eq_false_iff w v).mpr ⟨hw p hp, hv p hp⟩

lemma separators_last : ∀ p ∈ separators, p.after →
    ∀ c ∈ p.mark.getLast?, c.isAlphanum = false ∧ c ≠ ')' ∧ c ≠ ']' := by
  simp [separators, brackets, comma, equals, arrow]

lemma separators_head : ∀ p ∈ separators, p.before →
    ∀ c ∈ p.mark.head?, c.isAlphanum = false ∧ c ≠ '"' := by
  simp [separators, brackets, comma, equals, arrow]

lemma firmEnd_of_getLast
    (h : ∃ c ∈ w.getLast?, c.isAlphanum ∨ c = ')' ∨ c = ']') : FirmEnd w := by
  obtain ⟨c, hlast, hc⟩ := h
  intro p hp hafter
  rw [← Bool.not_eq_true]
  intro hend
  rw [← getLast?_of_suffix (endsAt_suffix p.ne_nil hend) p.ne_nil] at hlast
  obtain ⟨halphanum, hparen, hbracket⟩ := separators_last p hp hafter c hlast
  simp [halphanum, hparen, hbracket] at hc

lemma firmStart_of_head (h : ∃ c ∈ w.head?, c.isAlphanum ∨ c = '"') : FirmStart w := by
  obtain ⟨c, hhead, hc⟩ := h
  intro p hp hbefore hpre
  rw [← head?_eq_of_isPrefix hpre p.ne_nil] at hhead
  obtain ⟨halphanum, hquote⟩ := separators_head p hp hbefore c hhead
  simp [halphanum, hquote] at hc

lemma merged_cons_eq (ps : List Separator) (w : List Char) (ws : List (List Char)) :
    ∃ v vs, merged ps (w :: ws) = v :: vs ∧ w <+: v := by
  induction ps generalizing w ws with
  | nil => exact ⟨w, ws, rfl, prefix_refl w⟩
  | cons p ps ih =>
    obtain ⟨x, xs, hx⟩ := exists_cons_of_ne_nil (merge_ne_nil (g := p.glues) w ws)
    have hpre : w <+: x := prefix_of_mem_merge_head (g := p.glues) w ws x (by simp [hx])
    obtain ⟨v, vs, hv, hxv⟩ := ih x xs
    refine ⟨v, vs, ?_, hpre.trans hxv⟩
    rw [merged, foldl_cons, hx]
    exact hv

/-- A word with a firm end stays alone if nothing is joined to it later. -/
theorem merged_cons (hend : ∀ p ∈ ps, p.after → endsAt p.mark w = false)
    (hstart : ∀ v ∈ (merged ps ws).head?, ∀ p ∈ ps, p.before → ¬ p.mark <+: v) :
    merged ps (w :: ws) = w :: merged ps ws := by
  induction ps generalizing ws with
  | nil => rfl
  | cons p ps ih =>
    have hmerge : merge p.glues (w :: ws) = w :: merge p.glues ws := by
      cases ws with
      | nil => rfl
      | cons v ws =>
        have hglue : p.glues w v = false := by
          rw [glues_eq_false_iff]
          refine ⟨hend p mem_cons_self, fun hbefore hpre => ?_⟩
          obtain ⟨x, xs, hx, hvx⟩ := merged_cons_eq (p :: ps) v ws
          exact hstart x (by simp [hx]) p mem_cons_self hbefore (hpre.trans hvx)
        rw [merge, hglue, if_neg Bool.false_ne_true]
    rw [merged, foldl_cons, hmerge]
    exact ih (fun q hq => hend q (mem_cons_of_mem _ hq))
      fun v hv q hq => hstart v hv q (mem_cons_of_mem _ hq)

lemma merged_eq_self (h : ∀ p ∈ ps, ws.IsChain fun w v => p.glues w v = false) :
    merged ps ws = ws := by
  induction ps with
  | nil => rfl
  | cons p ps ih =>
    rw [merged, foldl_cons, merge_eq_self (h p mem_cons_self)]
    exact ih fun q hq => h q (mem_cons_of_mem _ hq)

lemma merged_pair {v : List Char}
    (h : ∀ p ∈ ps, p.glues w v = false) : merged ps [w, v] = [w, v] :=
  merged_eq_self fun p hp => by simpa using h p hp

lemma getLast_listWords :
    ∀ w ∈ (listWords start items stop).getLast?, w <:+ start ++ (join [','] items ++ stop) := by
  intro w hw
  have hflatten := flatten_merge comma.glues (listWords start items stop)
  rw [merge_listWords, flatten_singleton] at hflatten
  rw [hflatten, ← dropLast_append_getLast? w hw, flatten_append, flatten_singleton]
  exact suffix_append _ _

lemma head_listWords :
    ∀ w ∈ (listWords start items stop).head?, w <+: start ++ (join [','] items ++ stop) := by
  intro w hw
  have hflatten := flatten_merge comma.glues (listWords start items stop)
  rw [merge_listWords, flatten_singleton] at hflatten
  rw [hflatten, eq_cons_of_mem_head? hw, flatten_cons]
  exact prefix_append _ _

lemma merge_lists {start stop start' stop' : List Char} {items items' : List (List Char)}
    (hend : endsAt comma.mark (start ++ (join [','] items ++ stop)) = false)
    (hstart : ¬ comma.mark <+: start' ++ (join [','] items' ++ stop')) :
    merge comma.glues (listWords start items stop ++ listWords start' items' stop') =
      [start ++ (join [','] items ++ stop), start' ++ (join [','] items' ++ stop')] := by
  rw [merge_append, merge_listWords, merge_listWords]
  · rfl
  · intro w hw v hv
    have hsimple : comma.Simple := by simp [Simple, comma]
    rw [glues_eq_false_iff]
    refine ⟨fun _ => ?_, fun _ hpre => ?_⟩
    · rw [← Bool.not_eq_true, hsimple.endsAt_iff] at hend ⊢
      exact fun hsuffix => hend (hsuffix.trans (getLast_listWords _ _ _ w hw))
    · exact hstart (hpre.trans (head_listWords _ _ _ v hv))

lemma merged_lists {start stop start' stop' : List Char} {items items' : List (List Char)}
    (hend : FirmEnd (start ++ (join [','] items ++ stop)))
    (hstart : FirmStart (start' ++ (join [','] items' ++ stop'))) :
    merged separators (listWords start items stop ++ listWords start' items' stop') =
      [start ++ (join [','] items ++ stop), start' ++ (join [','] items' ++ stop')] := by
  have hcomma : comma ∈ separators := mem_cons_self
  rw [separators, merged, foldl_cons, merge_lists (hend comma hcomma rfl) (hstart comma hcomma rfl)]
  exact merged_pair fun p hp => glues_of_firm hend hstart (mem_cons_of_mem _ hp)

def Nature.keyword : Nature → List Char
  | .quantum => "qreg".toList
  | .classical | .other => "creg".toList

def codes (ps : List Angle) : List (List Char) :=
  ps.map fun a => a.code.toList

def texts (ts : List Target) : List (List Char) :=
  ts.map fun t => t.text.toList

def gateWord (name : List Char) (ps : List Angle) : List Char :=
  if ps.isEmpty then name else name ++ ['('] ++ (join [','] (codes ps) ++ [')'])

namespace Statement

def printed : Statement → List (List Char)
  | .version => ["OPENQASM".toList, "2.0;".toList]
  | .declare r => [r.nature.keyword, r.word ++ [';']]
  | .load f => ["include".toList, ['"'] ++ (f.toList ++ ['"', ';'])]
  | .comment _ => []
  | .u a b c q =>
    listWords "U(".toList (codes [a, b, c]) [')'] ++ listWords [] (texts [q]) [';']
  | .cx c t => ["CX".toList, c.text.toList, t.text.toList ++ [';']]
  | .measure q b => ["measure".toList, q.text.toList, "->".toList, b.text.toList ++ [';']]
  | .reset q => ["reset".toList, q.text.toList ++ [';']]
  | .gate n ts ps =>
    (if ps.isEmpty then [n.toList] else listWords (n.toList ++ ['(']) (codes ps) [')']) ++
      listWords [] (texts ts) [';']
  | .barrier ts => "barrier".toList :: listWords [] (texts ts) [';']
  | .guarded r v s => conditionWord r v.val :: s.printed

def words : Statement → List (List Char)
  | .version => ["OPENQASM".toList, "2.0".toList]
  | .declare r => [r.nature.keyword, r.word]
  | .load f => ["include".toList, ['"'] ++ (f.toList ++ ['"'])]
  | .comment _ => []
  | .u a b c q => ["U(".toList ++ (join [','] (codes [a, b, c]) ++ [')']), q.text.toList]
  | .cx c t => ["CX".toList, c.text.toList, t.text.toList]
  | .measure q b => ["measure".toList, q.text.toList ++ ("->".toList ++ b.text.toList)]
  | .reset q => ["reset".toList, q.text.toList]
  | .gate n ts ps => [gateWord n.toList ps, join [','] (texts ts)]
  | .barrier ts => ["barrier".toList, join [','] (texts ts)]
  | .guarded r v s => conditionWord r v.val :: s.words

def declared : Statement → Registers
  | .declare r => [r]
  | .guarded _ _ s => s.declared
  | _ => []

def hasCX : Statement → Bool
  | .cx .. => true
  | .guarded _ _ s => s.hasCX
  | _ => false

def guards : Statement → Nat
  | .guarded _ _ s => s.guards + 1
  | _ => 0

/-- The statement up to full turns and up to blanks before a comment. -/
def canonical : Statement → Statement
  | .comment t => .comment (String.ofList (trimLeft t.toList))
  | .u a b c q => .u a.normalize b.normalize c.normalize q
  | .gate n ts ps => .gate n ts (ps.map Angle.normalize)
  | .guarded r v s => .guarded r v s.canonical
  | s => s

/-- No space stands beside a `==` in what is written of a statement. -/
def Compact : Statement → Prop
  | .comment t => trimLeft (equals.drop (dropSpaces t.toList)) = trimLeft t.toList
  | .gate name _ _ => endsAt equals.mark name.toList = false
  | .guarded _ _ s => s.Compact ∧ ¬ equals.mark <+: (s.text.getD "").toList
  | _ => True

instance decidableCompact : (s : Statement) → Decidable s.Compact
  | .comment t =>
    inferInstanceAs (Decidable (trimLeft (equals.drop (dropSpaces t.toList)) = trimLeft t.toList))
  | .gate name _ _ => inferInstanceAs (Decidable (endsAt equals.mark name.toList = false))
  | .guarded _ _ s =>
    have := decidableCompact s
    inferInstanceAs (Decidable (s.Compact ∧ ¬ equals.mark <+: (s.text.getD "").toList))
  | .version | .declare _ | .load _ | .u .. | .cx .. | .measure .. | .reset _ | .barrier _ =>
    inferInstanceAs (Decidable True)

end Statement

def keywords : List (List Char) :=
  ["OPENQASM".toList, "qreg".toList, "creg".toList, "include".toList, "CX".toList, "measure".toList,
    "reset".toList, "barrier".toList]

/-- The name of a gate with or without angles, at the start of a line or `inner` in a condition. -/
structure GateName (inner plain : Bool) (name : List Char) : Prop where
  word : Word name
  line : '\n' ∉ name
  no_u : ¬ "U".toList <+: name
  no_if : ¬ "if".toList <+: name
  keyword : plain = true → name ∉ keywords
  bracket : plain = true → bracketed? '(' ')' name = none
  named : plain = false → Named name
  ends : ∀ p ∈ separators, p.mark ≠ equals.mark → p.after = true → endsAt p.mark name = false
  starts : inner = true → ∀ p ∈ separators, p.mark ≠ equals.mark → p.before = true →
    ¬ p.mark <+: name
  leads : inner = false →
    (∀ c ∈ name.head?, isBlank c = false) ∧ ¬ "//".toList <+: name ∧ ¬ "gate".toList <+: name

def Statement.Fits (rs : Registers) : Bool → Statement → Prop
  | _, .version => True
  | _, .declare r => r.Proper ∧ ∀ r' ∈ rs, r'.name ≠ r.name
  | _, .load f => f.toList ≠ [] ∧ ' ' ∉ f.toList ∧ '\n' ∉ f.toList
  | _, .comment _ => False
  | _, .u _ _ _ q => q.Fits rs [.quantum]
  | _, .cx c t => c.Fits rs [.quantum] ∧ t.Fits rs [.quantum] ∧
    (c.pos = none → t.pos = none → c.size = t.size)
  | _, .measure q b =>
    q.Fits rs [.quantum] ∧ b.Fits rs [.classical] ∧ checkSizes [q, b] = .ok ()
  | _, .reset q => q.Fits rs [.quantum]
  | inner, .gate n ts ps =>
    ts ≠ [] ∧ (∀ t ∈ ts, t.Fits rs [.quantum, .classical]) ∧ checkSizes ts = .ok () ∧
      GateName inner ps.isEmpty n.toList
  | _, .barrier ts => ts ≠ [] ∧ ∀ t ∈ ts, t.Fits rs [.quantum]
  | _, .guarded r v s =>
    rs.find? .classical r.name.toList = some r ∧ v.truth = false ∧ v.val < pow2 r.size.val ∧
      s.Fits rs true

section

variable {rs : Registers} {inner : Bool} {s : Statement}
variable {ps : List Angle} {natures : List Nature} {ts : List Target}
variable (w : List Char)

lemma toList_anglesText (hps : ps ≠ []) :
    (Statement.anglesText ps).toList = ['('] ++ (join ", ".toList (codes ps) ++ [')']) := by
  have hne : ps.isEmpty = false := by simpa using hps
  simp [Statement.anglesText, hne, codes, join, String.toList_intercalate, Function.comp_def]

lemma toList_listText (ts : List Target) :
    (Target.listText ts).toList = join ", ".toList (texts ts) := by
  simp [Target.listText, texts, join, String.toList_intercalate, Function.comp_def]

lemma Statement.Fits.printed_ne_nil (h : s.Fits rs inner) : s.printed ≠ [] := by
  cases s <;> simp_all [printed, Fits, listWords_ne_nil]

theorem Statement.Fits.text_eq (h : s.Fits rs inner) :
    ∃ t, s.text = some t ∧ t.toList = join [' '] s.printed := by
  have hlist := fun a xs b => listWords_ne_nil a xs b
  induction s generalizing inner with
  | version => exact ⟨_, rfl, by decide⟩
  | declare r =>
    obtain ⟨nature, name, size⟩ := r
    obtain ⟨hr, -⟩ := h
    have hsize := Count.text_of_plain hr.plain
    cases nature with
    | quantum => exact ⟨_, rfl, by simp [printed, join, Nature.keyword, Register.word, hsize]⟩
    | classical => exact ⟨_, rfl, by simp [printed, join, Nature.keyword, Register.word, hsize]⟩
    | other => exact absurd rfl hr.nature
  | load f => exact ⟨_, rfl, by simp [printed, join]⟩
  | comment t => exact h.elim
  | u a b c q =>
    refine ⟨_, rfl, ?_⟩
    rw [printed, join_append (hlist _ _ _) (hlist _ _ _), join_listWords, join_listWords]
    simp [toList_anglesText, texts, join]
  | cx c t => exact ⟨_, rfl, by simp [printed, join]⟩
  | measure q b => exact ⟨_, rfl, by simp [printed, join]⟩
  | reset q => exact ⟨_, rfl, by simp [printed, join]⟩
  | gate n ts ps =>
    refine ⟨_, rfl, ?_⟩
    rw [printed]
    split_ifs with hps
    · rw [join_append (by simp) (hlist _ _ _), join_listWords]
      simp [anglesText, hps, toList_listText, join]
    · rw [join_append (hlist _ _ _) (hlist _ _ _), join_listWords, join_listWords]
      simp [toList_anglesText (by simpa using hps), toList_listText]
  | barrier ts =>
    refine ⟨_, rfl, ?_⟩
    rw [printed, join_cons _ (hlist _ _ _), join_listWords]
    simp [toList_listText]
  | guarded r v s ih =>
    obtain ⟨-, hplain, -, hs⟩ := h
    obtain ⟨t, ht, hjoin⟩ := ih hs
    refine ⟨_, by rw [text, ht]; rfl, ?_⟩
    rw [printed, join_cons _ hs.printed_ne_nil, ← hjoin]
    simp [conditionWord, Count.text_of_plain hplain]

/-- The words of a line, with a semicolon after the last one. -/
def close : List (List Char) → List (List Char)
  | [] => []
  | [w] => [w ++ [';']]
  | w :: v :: ws => w :: close (v :: ws)

lemma close_cons (hws : ws ≠ []) : close (w :: ws) = w :: close ws := by
  cases ws with
  | nil => exact absurd rfl hws
  | cons v ws => rfl

lemma close_ne_nil (ws : List (List Char)) : close (w :: ws) ≠ [] := by
  cases ws <;> simp [close]

lemma join_close (hws : ws ≠ []) : join [' '] (close ws) = join [' '] ws ++ [';'] := by
  induction ws with
  | nil => exact absurd rfl hws
  | cons w ws ih =>
    cases ws with
    | nil => simp [close, join]
    | cons v ws =>
      rw [close, join_cons w (close_ne_nil v ws), ih (by simp), join_cons w (by simp)]
      simp

variable (hrs : ∀ r ∈ rs, r.Proper)
include hrs

lemma head?_texts (hne : ts ≠ []) (hts : ∀ t ∈ ts, t.Fits rs natures) (stop : List Char) :
    ∃ c ∈ (join [','] (texts ts) ++ stop).head?, c.isAlphanum := by
  obtain ⟨t, ts, rfl⟩ := exists_cons_of_ne_nil hne
  obtain ⟨c, hc, halphanum⟩ := (hts t mem_cons_self).text_head hrs
  refine ⟨c, ?_, halphanum⟩
  obtain ⟨rest, hcons⟩ : ∃ rest, t.text.toList = c :: rest := ⟨_, eq_cons_of_mem_head? hc⟩
  cases ts with
  | nil => simp [texts, join, hcons]
  | cons u ts => simp [texts, join, intercalate_cons_cons, hcons]

lemma Target.Fits.firmEnd {t : Target}
    (ht : t.Fits rs natures) : FirmEnd t.text.toList := by
  obtain ⟨hmem, -⟩ := findSome?_find?_name ht.found
  have hnamed := (hrs _ hmem).named
  apply firmEnd_of_getLast
  rcases ht.text_eq with ⟨htext, -⟩ | ⟨n, -, htext⟩ <;> rw [htext]
  · have hlast := getLast_mem hnamed.ne_nil
    exact ⟨_, getLast?_eq_some_getLast hnamed.ne_nil, .inl (hnamed.alphanum _ hlast)⟩
  · have hsuffix : [']'] <:+ t.register.name.toList ++ (['['] ++ ((toString n).toList ++ [']'])) :=
      ⟨t.register.name.toList ++ (['['] ++ (toString n).toList), by simp⟩
    exact ⟨']', (getLast?_of_suffix hsuffix (by simp)).symm, by simp⟩

lemma Target.Fits.firmStart {t : Target}
    (ht : t.Fits rs natures) (stop : List Char) : FirmStart (t.text.toList ++ stop) := by
  obtain ⟨c, hc, halphanum⟩ := ht.text_head hrs
  obtain ⟨rest, hcons⟩ : ∃ rest, t.text.toList = c :: rest := ⟨_, eq_cons_of_mem_head? hc⟩
  exact firmStart_of_head ⟨c, by simp [hcons], .inl halphanum⟩

lemma firmStart_texts (hne : ts ≠ []) (hts : ∀ t ∈ ts, t.Fits rs natures) (stop : List Char) :
    FirmStart (join [','] (texts ts) ++ stop) := by
  obtain ⟨c, hc, halphanum⟩ := head?_texts hrs hne hts stop
  exact firmStart_of_head ⟨c, hc, .inl halphanum⟩

omit hrs

lemma firmEnd_concat_paren : FirmEnd (w ++ [')']) :=
  firmEnd_of_getLast ⟨')', by simp, by simp⟩

lemma conditionWord_firmEnd (r : Register) (value : Nat) : FirmEnd (conditionWord r value) := by
  rw [conditionWord, ← append_assoc]
  exact firmEnd_concat_paren _

lemma GateName.firmEnd {plain : Bool} {name : List Char} (h : GateName inner plain name)
    (hcompact : endsAt equals.mark name = false) : FirmEnd name := by
  intro p hp hafter
  by_cases hmark : p.mark = equals.mark
  · rwa [hmark]
  · exact h.ends p hp hmark hafter

lemma merged_two {w v : List Char} (hw : FirmEnd w) (hv : FirmStart v) :
    merged separators [w, v] = [w, v] :=
  merged_pair fun _ hp => glues_of_firm hw hv hp

lemma merged_arrow {q b : List Char} (hq : FirmEnd q) (hb : FirmStart b) :
    merged separators [q, "->".toList, b] = [q ++ ("->".toList ++ b)] := by
  have hkeep : ∀ p ∈ [comma, equals], merge p.glues [q, "->".toList, b] = [q, "->".toList, b] := by
    intro p hp
    have hp' : p ∈ separators := by
      simp only [mem_cons, not_mem_nil, or_false] at hp
      rcases hp with rfl | rfl <;> simp [separators]
    have harrow : p.after → endsAt p.mark "->".toList = false := by
      simp only [mem_cons, not_mem_nil, or_false] at hp
      rcases hp with rfl | rfl <;> decide
    have harrow' : p.before → ¬ p.mark <+: "->".toList := by
      simp only [mem_cons, not_mem_nil, or_false] at hp
      rcases hp with rfl | rfl <;> decide
    refine merge_eq_self ?_
    simp only [isChain_cons_cons, isChain_singleton, and_true, glues_eq_false_iff]
    exact ⟨⟨hq p hp', harrow'⟩, harrow, hb p hp'⟩
  have hleft : arrow.glues q "->".toList := by
    simp [glues, arrow]
  have hright : arrow.glues "->".toList b := by
    have hend : endsAt arrow.mark "->".toList := by decide
    rw [glues, hend]
    rfl
  rw [separators, merged, foldl_cons, hkeep comma (by simp), foldl_cons,
    hkeep equals (by simp), foldl_cons, merge, hleft, merge, hright, merge]
  rfl

lemma Statement.Fits.words_ne_nil (h : s.Fits rs inner) : s.words ≠ [] := by
  cases s <;> simp_all [words, Fits]

lemma Statement.Fits.words_eq (h : s.Fits rs inner) : ∃ w ws, s.words = w :: ws ∧ ws ≠ [] ∧
      ((∃ c ∈ w.head?, c.isAlphanum) ∨ ∃ n ts, s = .gate n ts [] ∧ w = n.toList) := by
  cases s with
  | version => exact ⟨_, _, rfl, by simp, .inl ⟨'O', by decide, by decide⟩⟩
  | declare r =>
    refine ⟨_, _, rfl, by simp, .inl ?_⟩
    cases r.nature
    · exact ⟨'q', by decide, by decide⟩
    · exact ⟨'c', by decide, by decide⟩
    · exact ⟨'c', by decide, by decide⟩
  | load f => exact ⟨_, _, rfl, by simp, .inl ⟨'i', by decide, by decide⟩⟩
  | comment t => exact h.elim
  | u a b c q => exact ⟨_, _, rfl, by simp, .inl ⟨'U', by simp, by decide⟩⟩
  | cx c t => exact ⟨_, _, rfl, by simp, .inl ⟨'C', by decide, by decide⟩⟩
  | measure q b => exact ⟨_, _, rfl, by simp, .inl ⟨'m', by decide, by decide⟩⟩
  | reset q => exact ⟨_, _, rfl, by simp, .inl ⟨'r', by decide, by decide⟩⟩
  | gate n ts ps =>
    refine ⟨_, _, rfl, by simp, ?_⟩
    cases ps with
    | nil => exact .inr ⟨n, ts, rfl, rfl⟩
    | cons p ps =>
      obtain ⟨-, -, -, hname⟩ := h
      have hnamed := hname.named rfl
      obtain ⟨c, rest, hcons⟩ := exists_cons_of_ne_nil hnamed.ne_nil
      exact .inl ⟨c, by simp [gateWord, hcons], hnamed.alphanum c (by simp [hcons])⟩
  | barrier ts => exact ⟨_, _, rfl, by simp, .inl ⟨'b', by decide, by decide⟩⟩
  | guarded r v s =>
    refine ⟨_, _, rfl, ?_, .inl ⟨'i', by simp [conditionWord], by decide⟩⟩
    exact words_ne_nil h.2.2.2

lemma Statement.Fits.starts (h : s.Fits rs true) :
    ∀ w ∈ (close s.words).head?, ∀ p ∈ separators, p.mark ≠ equals.mark → p.before →
      ¬ p.mark <+: w := by
  obtain ⟨w, ws, hwords, hws, hhead⟩ := h.words_eq
  rw [hwords, close_cons w hws]
  rintro _ ⟨rfl⟩ p hp hmark hbefore
  rcases hhead with ⟨c, hc, halphanum⟩ | ⟨n, ts, rfl, rfl⟩
  · exact firmStart_of_head ⟨c, hc, .inl halphanum⟩ p hp hbefore
  · exact h.2.2.2.starts rfl p hp hmark hbefore

lemma Statement.Fits.equals_start (h : s.Fits rs inner)
    (hpre : equals.mark <+: (s.text.getD "").toList) :
    ∃ n ts, s = .gate n ts [] ∧ equals.mark <+: n.toList := by
  cases s with
  | declare r =>
    obtain ⟨nature, name, size⟩ := r
    cases nature <;> simp [text, Register.text, equals] at hpre
  | comment t => exact h.elim
  | gate n ts ps =>
    have hname := h.2.2.2
    have hstart : equals.mark <+: n.toList := by
      have htext : ((gate n ts ps).text.getD "").toList = n.toList ++
          ((anglesText ps).toList ++ ([' '] ++ ((Target.listText ts).toList ++ [';']))) := by
        simp [text]
      rw [htext] at hpre
      refine prefix_of_prefix_append ?_ hpre
      cases ps <;> simp [anglesText, equals]
    refine ⟨n, ts, ?_, hstart⟩
    cases ps with
    | nil => rfl
    | cons a ps =>
      have hmem : '=' ∈ n.toList := hstart.subset (by simp [equals])
      exact absurd hmem ((hname.named rfl).notMem (by decide))
  | guarded r v s =>
    obtain ⟨t, ht, -⟩ := text_eq h.2.2.2
    simp [text, ht, equals] at hpre
  | _ => simp [text, equals] at hpre

lemma Statement.Fits.firmStart (h : s.Fits rs true)
    (hcompact : ¬ equals.mark <+: (s.text.getD "").toList) :
    ∀ w ∈ (close s.words).head?, FirmStart w := by
  intro w hw p hp hbefore hpre
  by_cases hmark : p.mark = equals.mark
  · obtain ⟨v, ws, hwords, hws, hhead⟩ := h.words_eq
    rw [hwords, close_cons v hws] at hw
    obtain rfl : v = w := by simpa using hw
    rcases hhead with ⟨c, hc, halphanum⟩ | ⟨n, ts, rfl, rfl⟩
    · exact firmStart_of_head ⟨c, hc, .inl halphanum⟩ p hp hbefore hpre
    · refine hcompact ((hmark ▸ hpre).trans ?_)
      simp [text, anglesText]
  · exact h.starts w hw p hp hmark hbefore hpre

/-- Tidying what is written of a statement leaves the words from which it is read. -/
theorem Statement.Fits.merged_printed (hrs : ∀ r ∈ rs, r.Proper) (h : s.Fits rs inner)
    (hcompact : s.Compact) : merged separators s.printed = close s.words := by
  induction s generalizing inner with
  | version =>
    exact merged_two (firmEnd_of_getLast ⟨'M', by decide, by decide⟩)
      (firmStart_of_head ⟨'2', by decide, by decide⟩)
  | declare r =>
    have hend : FirmEnd r.nature.keyword := by
      cases r.nature <;> exact firmEnd_of_getLast ⟨'g', by decide, by decide⟩
    have hstart : FirmStart (r.word ++ [';']) := by
      obtain ⟨c, rest, hcons⟩ := exists_cons_of_ne_nil h.1.named.ne_nil
      have hc := h.1.named.alphanum c (by simp [hcons])
      exact firmStart_of_head ⟨c, by simp [Register.word, hcons], .inl hc⟩
    exact merged_two hend hstart
  | load f =>
    have hend : FirmEnd "include".toList := firmEnd_of_getLast ⟨'e', by decide, by decide⟩
    have hstart : FirmStart (['"'] ++ (f.toList ++ ['"', ';'])) :=
      firmStart_of_head ⟨'"', by simp, by simp⟩
    rw [printed, merged_two hend hstart]
    simp [words, close]
  | comment t => exact h.elim
  | u a b c q =>
    have hq : q.Fits rs [.quantum] := h
    have hstart : FirmStart ([] ++ (join [','] (texts [q]) ++ [';'])) :=
      firmStart_texts hrs (by simp) (by simpa using hq) [';']
    rw [printed, merged_lists _ hstart]
    · simp [words, close, texts, join]
    · rw [← append_assoc]
      exact firmEnd_concat_paren _
  | cx c t =>
    have hpair := merged_two (h.1.firmEnd hrs) (h.2.1.firmStart hrs [';'])
    have hend : FirmEnd "CX".toList := firmEnd_of_getLast ⟨'X', by decide, by decide⟩
    have hstart : FirmStart c.text.toList := by simpa using h.1.firmStart hrs []
    rw [printed, merged_cons hend, hpair]
    · rfl
    · rw [hpair]
      rintro _ ⟨rfl⟩
      exact hstart
  | measure q b =>
    have hjoin := merged_arrow (h.1.firmEnd hrs) (h.2.1.firmStart hrs [';'])
    have hend : FirmEnd "measure".toList := firmEnd_of_getLast ⟨'e', by decide, by decide⟩
    have hstart := h.1.firmStart hrs ("->".toList ++ (b.text.toList ++ [';']))
    rw [printed, merged_cons hend, hjoin]
    · simp [words, close]
    · rw [hjoin]
      rintro _ ⟨rfl⟩
      exact hstart
  | reset q =>
    have hq : q.Fits rs [.quantum] := h
    exact merged_two (firmEnd_of_getLast ⟨'t', by decide, by decide⟩) (hq.firmStart hrs [';'])
  | gate n ts ps =>
    obtain ⟨hne, hts, -, hname⟩ := h
    have hstart : FirmStart ([] ++ (join [','] (texts ts) ++ [';'])) :=
      firmStart_texts hrs hne hts [';']
    rw [printed, words, gateWord]
    split_ifs with hps
    · have hend : FirmEnd (n.toList ++ (join [','] [] ++ [])) := by
        simpa [join] using hname.firmEnd hcompact
      have hlists := merged_lists hend hstart
      simpa [listWords, close, join] using hlists
    · rw [merged_lists _ hstart]
      · simp [close]
      · rw [← append_assoc]
        exact firmEnd_concat_paren _
  | barrier ts =>
    obtain ⟨hne, hts⟩ := h
    have hstart : FirmStart ([] ++ (join [','] (texts ts) ++ [';'])) :=
      firmStart_texts hrs hne hts [';']
    have hend : FirmEnd ("barrier".toList ++ (join [','] [] ++ [])) :=
      firmEnd_of_getLast ⟨'r', by decide, by decide⟩
    have hlists := merged_lists hend hstart
    simpa [printed, words, listWords, close, join] using hlists
  | guarded r v s ih =>
    obtain ⟨hs, hstart⟩ := hcompact
    have hbody := ih h.2.2.2 hs
    rw [printed, merged_cons (conditionWord_firmEnd r v.val), hbody]
    · exact (close_cons _ h.2.2.2.words_ne_nil).symm
    · rw [hbody]
      exact h.2.2.2.firmStart hstart

lemma readStatement_cons {w : List Char} (hkey : w ∉ keywords) (hu : ¬ "U".toList <+: w)
    (ws : List (List Char)) :
    readStatement rs (w :: ws) =
      if "if".toList.isPrefixOf w then do
        if ws.isEmpty then throw .unreadable
        let (r, value) ← readCondition rs w
        let (body, rs') ← readStatement rs ws
        return (← guard r value body, rs')
      else (do readGate rs w (← operand (w :: ws))).map fun s => (s, rs) := by
  have hne : ∀ k ∈ keywords, (w == k) = false := by
    intro k hk
    rw [beq_eq_false_iff_ne]
    exact fun heq => hkey (heq ▸ hk)
  have hu' : "U".toList.isPrefixOf w = false := by
    rwa [← Bool.not_eq_true, isPrefixOf_iff_prefix]
  rw [readStatement, hne "OPENQASM".toList (by simp [keywords]), hne "qreg".toList (by simp [keywords]),
    hne "creg".toList (by simp [keywords]), hne "include".toList (by simp [keywords]),
    hne "CX".toList (by simp [keywords]), hne "measure".toList (by simp [keywords]),
    hne "reset".toList (by simp [keywords]), hne "barrier".toList (by simp [keywords]), hu']
  rfl

lemma conditionWord_notMem_keywords (r : Register) (value : Nat) (t : List Char) :
    conditionWord r value ++ t ∉ keywords ∧ ¬ "U".toList <+: conditionWord r value ++ t ∧
      "if".toList.isPrefixOf (conditionWord r value ++ t) := by
  simp [conditionWord, keywords]

lemma readStatement_condition {r : Register} (hr : r.Proper)
    (hfind : rs.find? .classical r.name.toList = some r) (value : Nat)
    (hws : ws ≠ []) :
    readStatement rs (conditionWord r value :: ws) = (do
      let (body, rs') ← readStatement rs ws
      return (← guard r value body, rs')) := by
  obtain ⟨hkey, hu, hif⟩ := conditionWord_notMem_keywords r value []
  rw [append_nil] at hkey hu hif
  have hempty : ws.isEmpty = false := by simpa using hws
  rw [readStatement_cons hkey hu, hif, if_pos rfl, hempty, if_neg Bool.false_ne_true,
    readCondition_word hr hfind]
  rfl

lemma GateName.gateWord {name : List Char} (h : GateName inner ps.isEmpty name) :
    gateWord name ps ∉ keywords ∧ ¬ "U".toList <+: gateWord name ps ∧
      "if".toList.isPrefixOf (gateWord name ps) = false := by
  rw [← Bool.not_eq_true, isPrefixOf_iff_prefix, Qasm.gateWord]
  split_ifs with hps
  · exact ⟨h.keyword hps, h.no_u, h.no_if⟩
  · have hparen : ∀ k ∈ keywords, '(' ∉ k := by decide
    rw [append_assoc]
    refine ⟨fun hmem => hparen _ hmem (by simp), fun hpre => h.no_u ?_, fun hpre => h.no_if ?_⟩
    · exact prefix_of_prefix_append (by simp) hpre
    · exact prefix_of_prefix_append (by simp) hpre

lemma join_codes_ne_nil (hps : ps ≠ []) : join [','] (codes ps) ≠ [] := by
  obtain ⟨a, ps, rfl⟩ := exists_cons_of_ne_nil hps
  have hcode := code_ne_nil a
  cases ps with
  | nil => simpa [codes, join] using hcode
  | cons b ps => simp [codes, join, intercalate_cons_cons]

lemma gate?_eq_ok {n : String} (hne : ts ≠ []) (hsizes : checkSizes ts = .ok ())
    (ps : List Angle) : Statement.gate? n ts ps = .ok (.gate n ts ps) := by
  have hempty : ts.isEmpty = false := by simpa using hne
  rw [Statement.gate?, hempty, if_neg Bool.false_ne_true, hsizes]
  rfl

include hrs

lemma readGate_words {n : String}
    (h : (Statement.gate n ts ps).Fits rs inner) :
    readGate rs (gateWord n.toList ps) (join [','] (texts ts)) =
      .ok (.gate n ts (ps.map Angle.normalize)) := by
  obtain ⟨hne, hts, hsizes, hname⟩ := h
  have hread : readTargets rs [.quantum, .classical] (join [','] (texts ts)) = .ok ts :=
    readTargets_join hrs hne hts
  rw [readGate, gateWord]
  split_ifs with hps
  · rw [hname.bracket hps, List.isEmpty_iff.mp hps]
    simp only [ok_bind, pure_bind, hread, gate?_eq_ok hne hsizes, String.ofList_toList, map_nil]
  · have hps' : ps ≠ [] := by simpa using hps
    have hbracket : bracketed? '(' ')' (n.toList ++ ['('] ++ (join [','] (codes ps) ++ [')'])) =
        some (n.toList, join [','] (codes ps)) := by
      rw [bracketed?_eq_some (by decide), append_assoc]
      exact ⟨hname.named (by simpa using hps), join_codes_ne_nil hps', rfl⟩
    have hangles : readAngles (join [','] (codes ps)) = .ok (ps.map Angle.normalize) :=
      readAngles_join hps'
    rw [hbracket]
    simp only [hangles, ok_bind, pure_bind, hread, gate?_eq_ok hne hsizes, String.ofList_toList]

lemma readU_words {q : Target} (hq : q.Fits rs [.quantum])
    (a b c : Angle) :
    readU rs ("U(".toList ++ (join [','] (codes [a, b, c]) ++ [')'])) q.text.toList =
      .ok (.u a.normalize b.normalize c.normalize q) := by
  have hne : join [','] (codes [a, b, c]) ≠ [] := join_codes_ne_nil (by simp)
  have hcomma : ∀ w ∈ codes [a, b, c], ',' ∉ w := by
    intro w hw hmem
    obtain ⟨a, -, rfl⟩ := mem_map.mp hw
    exact absurd (code_char hmem) (by decide)
  have hsplit : split [','] (join [','] (codes [a, b, c])) =
      [a.code.toList, b.code.toList, c.code.toList] := by
    rw [split_singleton, join, splitOn_intercalate _ hcomma (by simp [codes])]
    rfl
  rw [readU, after?_eq_some.mpr rfl, expect, ok_bind, before?_eq_some.mpr rfl, Option.bind_some,
    nonempty?_eq_some.mpr ⟨rfl, hne⟩, expect, ok_bind, hsplit]
  simp only [readAngle_code, ok_bind, readTarget_text hrs hq]
  rfl

lemma readMeasure_words {q b : Target} (hq : q.Fits rs [.quantum])
    (hb : b.Fits rs [.classical]) (hsizes : checkSizes [q, b] = .ok ()) :
    readMeasure rs (q.text.toList ++ ("->".toList ++ b.text.toList)) = .ok (.measure q b) := by
  have hdash : ∀ {natures} {t : Target}, t.Fits rs natures → ∀ c ∈ "->".toList.head?,
      c ∉ t.text.toList := by
    rintro natures t ht _ ⟨rfl⟩ hmem
    exact absurd (ht.text_char hrs hmem) (by decide)
  have hsplit : split "->".toList (q.text.toList ++ ("->".toList ++ b.text.toList)) =
      [q.text.toList, b.text.toList] := by
    rw [split_append_sep (by decide) (hdash hq), split_of_notMem (by decide) (hdash hb)]
  rw [readMeasure, hsplit]
  simp only [readTarget_text hrs hq, readTarget_text hrs hb, ok_bind, Statement.measure?, hsizes]
  rfl

lemma Statement.Fits.readStatement_words (h : s.Fits rs inner)
    (hcx : s.hasCX = false) :
    readStatement rs s.words = .ok (s.canonical, rs ++ s.declared) := by
  induction s generalizing inner with
  | version => simp [words, readStatement, readVersion, canonical, declared, Except.map]
  | declare r =>
    obtain ⟨hr, hfresh⟩ := h
    have hread := readRegister_word hr
    have hnew : (rs.any fun s => s.name == r.name) = false := by simpa using hfresh
    have hdeclare : readDeclaration rs r.nature [r.nature.keyword, r.word] =
        .ok (.declare r, rs ++ [r]) := by
      rw [readDeclaration, operand, ok_bind, hread, ok_bind, hnew]
      rfl
    obtain ⟨nature, name, size⟩ := r
    cases nature with
    | quantum => simpa [words, readStatement, Nature.keyword, canonical, declared] using hdeclare
    | classical => simpa [words, readStatement, Nature.keyword, canonical, declared] using hdeclare
    | other => exact absurd rfl hr.nature
  | load f =>
    obtain ⟨hne, -⟩ := h
    have hread : readLoad (['"'] ++ (f.toList ++ ['"'])) = .ok (.load f) := by
      rw [readLoad, after?_eq_some.mpr rfl, expect, ok_bind, before?_eq_some.mpr rfl, Option.bind_some,
        nonempty?_eq_some.mpr ⟨rfl, hne⟩, expect, ok_bind, String.ofList_toList]
      rfl
    rw [words, readStatement]
    simp only [operand, ok_bind, hread]
    simp [canonical, declared, Except.map]
  | comment t => exact h.elim
  | u a b c q =>
    have hq : q.Fits rs [.quantum] := h
    rw [words, readStatement]
    simp only [operand, ok_bind, readU_words hrs hq]
    simp [canonical, declared, Except.map]
  | cx c t => simp [hasCX] at hcx
  | measure q b =>
    rw [words, readStatement]
    simp only [operand, ok_bind, readMeasure_words hrs h.1 h.2.1 h.2.2]
    simp [canonical, declared, Except.map]
  | reset q =>
    have hq : q.Fits rs [.quantum] := h
    rw [words, readStatement]
    simp only [operand, ok_bind, readTarget_text hrs hq]
    simp [canonical, declared, Except.map, pure, Except.pure]
  | gate n ts ps =>
    obtain ⟨hkey, hu, hif⟩ := h.2.2.2.gateWord
    rw [words, readStatement_cons hkey hu, hif, if_neg Bool.false_ne_true, operand, ok_bind,
      readGate_words hrs h]
    simp [Except.map, canonical, declared]
  | barrier ts =>
    obtain ⟨hne, hts⟩ := h
    have hread : readTargets rs [.quantum] (join [','] (texts ts)) = .ok ts :=
      readTargets_join hrs hne hts
    rw [words, readStatement]
    simp only [operand, ok_bind, hread]
    simp [canonical, declared, Except.map, pure, Except.pure]
  | guarded r v s ih =>
    obtain ⟨hfind, hplain, hvalue, hs⟩ := h
    obtain ⟨hmem, -⟩ := Registers.find?_eq_some hfind
    obtain ⟨val, truth⟩ := v
    obtain rfl : truth = false := hplain
    rw [words, readStatement_condition (hrs r hmem) hfind _ hs.words_ne_nil, ih hs hcx, ok_bind]
    have hguard : guard r (val : Int) s.canonical = .ok (.guarded r ⟨val, false⟩ s.canonical) := by
      have hlt : (val : Int) < pow2 r.size.val := by exact_mod_cast hvalue
      simp [guard, hlt]
    simp only [hguard, ok_bind]
    rfl

end

end GadgetCircuits.Qasm

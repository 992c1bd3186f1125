import GadgetCircuits.Proofs.MappedTopology
import GadgetCircuits.Proofs.QasmParts

/-!
Topologies that are saved and read back. A topology without a name is saved by its couplings, and a member
of a family by its name, from which the family and its numbers are read. Only the name of a grid with a truth
value in the place of a number cannot be read.
-/

namespace GadgetCircuits.Topology

open List Coupling

variable {t u : Topology} {n : Nat} {v w m : Value} {pairs : List (Value × Value)}
variable {f : String × (Nat → Nat → List (Nat × Nat))} (label : String) {c : Nat × Nat} {k : Nat}

lemma check_of_checked {k : Value × Value} (h : Checked n k) : check n (.list [k.1, k.2]) = .ok k := by
  obtain ⟨hfirst, hsecond, hlt, hn⟩ := h
  have h₁ : isQubit n k.1 = .ok true := (isQubit_of_int? hfirst).mpr (by omega)
  have h₂ : isQubit n k.2 = .ok true := (isQubit_of_int? hsecond).mpr (by omega)
  have hends : Coupling.ofValues k.1 k.2 = .ok k := by
    rw [Coupling.ofValues, hfirst, hsecond]
    dsimp only
    rw [if_neg (by omega), orderedValues, hfirst, hsecond]
    dsimp only
    rw [if_pos (by omega)]
  simp only [check, Value.collection?, Value.sequence?, h₁, h₂, ok_bind]
  exact hends

lemma find?_and {α : Type} {p q : α → Bool} {xs : List α} {x : α} (h : xs.find? p = some x) (hq : q x) :
    xs.find? (fun y => q y && p y) = some x := by
  induction xs with
  | nil => cases h
  | cons y xs ih =>
    grind

theorem shownEnds_ofChecked (hpairs : ∀ k ∈ pairs, Checked n k) {d : Value × Value}
    (hd : pairs.find? (fun k => toNats k == c) = some d) :
    (ofChecked n pairs).shownEnds c = d := by
  have hkey : toNats d = c := by simpa using find?_some hd
  have hchecked := hpairs d (mem_of_find?_eq_some hd)
  have hfind : ((pairs.filter fun k => isBool k.1 || isBool k.2).filter fun k =>
      (pairs.find? fun d => toNats d == toNats k).any fun d => isBool d.1 || isBool d.2).find?
        (fun k => toNats k == c) = if isBool d.1 || isBool d.2 then some d else none := by
    split
    · rename_i hbool
      rw [filter_filter, find?_filter, ← find?_and (q := fun k => isBool k.1 || isBool k.2) hd hbool]
      congr 1
      grind
    · grind
  simp only [shownEnds, ofChecked, find?_map, Function.comp_def, hfind]
  by_cases hbool : (isBool d.1 || isBool d.2) = true
  · rw [if_pos hbool]
    rfl
  · rw [if_neg hbool, ← hkey]
    rw [Bool.or_eq_true, not_or, Bool.not_eq_true, Bool.not_eq_true] at hbool
    exact Prod.ext (ofNat_of_int? hchecked.first hbool.1).symm (ofNat_of_int? hchecked.second hbool.2).symm

lemma exists_find?_toNats {k : Value × Value} (hk : k ∈ pairs) (hc : toNats k = c) :
    ∃ d, pairs.find? (fun k => toNats k == c) = some d ∧ d ∈ pairs ∧ toNats d = c := by
  have hsome : (pairs.find? fun k => toNats k == c).isSome := find?_isSome.mpr ⟨k, hk, by simpa using hc⟩
  obtain ⟨d, hd⟩ := Option.isSome_iff_exists.mp hsome
  exact ⟨d, hd, mem_of_find?_eq_some hd, by simpa using find?_some hd⟩

lemma mem_ofChecked (hpairs : ∀ k ∈ pairs, Checked n k) :
    c ∈ (ofChecked n pairs).couplings ↔ ∃ k ∈ pairs, toNats k = c := by
  have hordered : ∀ k ∈ pairs, ordered (toNats k).1 (toNats k).2 = toNats k :=
    fun k hk => if_pos (hpairs k hk).lt
  refine mem_sortPairs.trans ?_
  grind

lemma ofChecked_canonical (hpairs : ∀ k ∈ pairs, Checked n k) :
    (ofChecked n pairs).Canonical := by
  refine ⟨fun c hc => ?_, sortPairs_ascending _⟩
  obtain ⟨k, hk, rfl⟩ := (mem_ofChecked hpairs).mp hc
  exact ⟨(hpairs k hk).lt, (hpairs k hk).inside⟩

lemma ofValues_of_checked {items : List Value} (hn : 0 < n) (h : items.mapM (check n) = .ok pairs) :
    ofValues (.ofNat n) (.list items) = .ok (ofChecked n pairs) := by
  simp only [ofValues, Value.ofNat, Value.int?, Int.toNat_natCast, Value.collection?, Value.sequence?, h]
  rw [if_neg (by omega)]
  rfl

/-- A saved topology is read as one with the same qubits and couplings, which is saved alike. -/
def RoundTrips (t : Topology) : Prop :=
  ∃ u, ofDocument t.document = .ok u ∧ u.same t ∧ u.document = t.document

lemma ofChecked_roundTrips (hn : 0 < n)
    (hpairs : ∀ k ∈ pairs, Checked n k) : (ofChecked n pairs).RoundTrips := by
  obtain ⟨t, ht⟩ : ∃ t, ofChecked n pairs = t := ⟨_, rfl⟩
  have hshown : ∀ c ∈ t.couplings, t.shownEnds c ∈ pairs ∧ toNats (t.shownEnds c) = c := by
    intro c hc
    rw [← ht] at hc ⊢
    obtain ⟨k, hk, hkc⟩ := (mem_ofChecked hpairs).mp hc
    obtain ⟨d, hd, hmem, hdc⟩ := exists_find?_toNats hk hkc
    rw [shownEnds_ofChecked hpairs hd]
    exact ⟨hmem, hdc⟩
  have hpairs' : ∀ k ∈ t.couplings.map t.shownEnds, Checked n k := by grind
  have hread : t.shownCouplings.mapM (check n) = .ok (t.couplings.map t.shownEnds) := by
    rw [shownCouplings, mapM_map]
    exact mapM_ok fun c hc => check_of_checked (hpairs' _ (mem_map_of_mem hc))
  have hsizes : t.size = n := ht ▸ rfl
  obtain ⟨u, hu⟩ : ∃ u, ofChecked n (t.couplings.map t.shownEnds) = u := ⟨_, rfl⟩
  have hdocument : ∀ v : Topology, v.name = none →
      v.document = .dict [(.str "num_qubits", .ofNat v.size), (.str "couplings", .list v.shownCouplings)] := by
    intro v hv
    rw [document, hv]
  have hsame : u.same t := by
    have hmem : ∀ c, c ∈ u.couplings ↔ c ∈ t.couplings := by
      intro c
      rw [← hu, mem_ofChecked hpairs']
      constructor
      · grind
      · exact fun hc => ⟨_, mem_map_of_mem hc, (hshown c hc).2⟩
    have hsizes : u.size = t.size := by
      rw [← hu, ← ht]
      rfl
    refine Canonical.same (hu ▸ ofChecked_canonical hpairs') (ht ▸ ofChecked_canonical hpairs) hsizes ?_
    intro a b
    rw [hasCoupling, hasCoupling, Bool.eq_iff_iff, contains_iff_mem, contains_iff_mem, hmem]
  have hcouplings : u.couplings = t.couplings := by
    rw [Topology.same, Bool.and_eq_true] at hsame
    exact eq_of_beq hsame.2
  have hends : ∀ c ∈ t.couplings, u.shownEnds c = t.shownEnds c := by
    intro c hc
    obtain ⟨d, hd, hmem, hdc⟩ := exists_find?_toNats (mem_map_of_mem hc) (hshown c hc).2
    obtain ⟨c', hc', rfl⟩ := mem_map.mp hmem
    rw [(hshown c' hc').2] at hdc
    rw [← hu, shownEnds_ofChecked hpairs' hd, hdc]
  have hunnamed : u.name = none ∧ t.name = none := by
    rw [← hu, ← ht]
    exact ⟨rfl, rfl⟩
  rw [ht]
  refine ⟨u, ?_, ?_, ?_⟩
  · have hvalues : ofDocument t.document = ofValues (.ofNat n) (.list t.shownCouplings) := by
      rw [hdocument t hunnamed.2, hsizes]
      rfl
    rw [hvalues, ofValues_of_checked hn hread, hu]
  · exact hsame
  · have hlists : u.shownCouplings = t.shownCouplings := by
      rw [shownCouplings, hcouplings]
      exact map_congr_left fun c hc => by rw [hends c hc]
    have husize : u.size = n := hu ▸ rfl
    rw [hdocument t hunnamed.2, hdocument u hunnamed.1, hlists, husize, hsizes]

lemma renamed_cases {image : Nat → Value} (h : t.renamed image = .ok u) :
    ∃ pairs, (∀ k ∈ pairs, Checked t.size k) ∧ ofChecked t.size pairs = u := by
  obtain ⟨pairs, hpairs, h⟩ := bind_eq_ok.mp h
  refine ⟨pairs, fun k hk => ?_, Except.ok.inj h⟩
  obtain ⟨c, -, hc⟩ := of_mem_mapM hpairs k hk
  split at hc
  · cases hc
  · exact checked_of_check hc

lemma int?_of_positive? (hv : positive? v = some k) : v.int? = some (k : Int) ∧ 0 < k := by
  obtain ⟨i, hi, hk⟩ := Option.bind_eq_some_iff.mp hv
  grind

lemma number?_digits (k : Nat) {c : Char} (hc : c.isDigit = false) (rest : List Char) :
    number? ((toString k).toList ++ c :: rest) = some (k, c :: rest) := by
  have hdigits : ∀ d ∈ (toString k).toList, d.isDigit := fun d hd => Numeral.isDigit_of_mem_toString hd
  have htake : ((toString k).toList ++ c :: rest).takeWhile Char.isDigit = (toString k).toList := by simp_all
  have hdrop : ((toString k).toList ++ c :: rest).dropWhile Char.isDigit = c :: rest := by
    rw [dropWhile_append_of_pos hdigits, dropWhile_cons_of_neg (by simp [hc])]
  have hvalue : (toString k).toList.foldl (fun n c => 10 * n + (c.toNat - '0'.toNat)) 0 = k := by
    rw [Numeral.toList_toString]
    exact Nat.ofDigitChars_toDigits (by omega) (by omega)
  simp only [number?, htake, hdrop, hvalue]
  rw [if_neg (by simp)]

def shown (v : Value) : List Char :=
  (v.text.getD "").toList

lemma number?_shown (hv : positive? v = some k) {c : Char} (hc : c.isDigit = false)
    (rest : List Char) :
    number? (shown v ++ c :: rest) = if isBool v then none else some (k, c :: rest) := by
  obtain ⟨hint, hpos⟩ := int?_of_positive? hv
  cases hbool : isBool v with
  | false =>
    rw [ofNat_of_int? hint hbool]
    exact number?_digits k hc rest
  | true =>
    cases v with
    | bool b =>
      cases b with
      | false => cases hv
      | true => rfl
    | _ => cases hbool

lemma afterText?_append (start rest : List Char) : afterText? start (start ++ rest) = some rest := by
  induction start with
  | nil => rfl
  | cons c start ih => simp [afterText?, ih]

lemma parameter₁?_shown (hv : positive? v = some k) :
    parameter₁? label (label.toList ++ ['('] ++ (shown v ++ [')'])) = if isBool v then none else some k := by
  rw [parameter₁?, afterText?_append]
  simp only [Option.bind_eq_bind, Option.bind_some, number?_shown hv (c := ')') rfl]
  split <;> rfl

lemma parameter₂?_shown {j k : Nat} (hv : positive? v = some j) (hw : positive? w = some k) :
    parameter₂? label (label.toList ++ ['('] ++ (shown v ++ ',' :: (shown w ++ [')']))) =
      if isBool v || isBool w then none else some (j, k) := by
  rw [parameter₂?, afterText?_append]
  simp only [Option.bind_eq_bind, Option.bind_some, number?_shown hv (c := ',') rfl]
  cases isBool v with
  | true => rfl
  | false =>
    simp only [Option.bind_some, Bool.false_eq_true, if_false, Bool.false_or]
    rw [show ',' :: (shown w ++ [')']) = [','] ++ (shown w ++ [')']) from rfl, afterText?_append]
    simp only [Option.bind_some, number?_shown hw (c := ')') rfl]
    split <;> rfl

def families₁ : List (String × (Nat → List (Nat × Nat))) :=
  [("line", linePairs), ("cycle", cyclePairs), ("complete", completePairs)]

def families₂ : List (String × (Nat → Nat → List (Nat × Nat))) :=
  [("grid", gridPairs), ("periodic_grid", periodicGridPairs)]

def name₁ (label : String) (v : Value) : String :=
  label ++ "(" ++ v.text.getD "" ++ ")"

def name₂ (label : String) (v w : Value) : String :=
  label ++ "(" ++ v.text.getD "" ++ "," ++ w.text.getD "" ++ ")"

lemma name₁_toList (v : Value) :
    (name₁ label v).toList = label.toList ++ ['('] ++ (shown v ++ [')']) := by
  simp [name₁, shown]

lemma name₂_toList (v w : Value) : (name₂ label v w).toList =
    label.toList ++ ['('] ++ (shown v ++ ',' :: (shown w ++ [')'])) := by
  simp [name₂, shown]

/-- No name starts like one of another family. -/
theorem ofName_name₁ {f : String × (Nat → List (Nat × Nat))} (hf : f ∈ families₁) (v : Value) :
    ofName (name₁ f.1 v) = match parameter₁? f.1 (name₁ f.1 v).toList with
      | some k => family₁ f.1 f.2 (.ofNat k)
      | none => .error (.topologyName (name₁ f.1 v)) := by
  simp only [families₁, mem_cons, not_mem_nil, or_false] at hf
  simp only [ofName, name₁_toList]
  rcases hf with rfl | rfl | rfl
  · cases parameter₁? "line" ("line".toList ++ ['('] ++ (shown v ++ [')'])) <;> rfl
  · cases parameter₁? "cycle" ("cycle".toList ++ ['('] ++ (shown v ++ [')'])) <;> rfl
  · cases parameter₁? "complete" ("complete".toList ++ ['('] ++ (shown v ++ [')'])) <;> rfl

lemma ofName_name₂ (hf : f ∈ families₂) (v w : Value) :
    ofName (name₂ f.1 v w) = match parameter₂? f.1 (name₂ f.1 v w).toList with
      | some (j, k) => family₂ f.1 f.2 (.ofNat j) (.ofNat k)
      | none => .error (.topologyName (name₂ f.1 v w)) := by
  simp only [families₂, mem_cons, not_mem_nil, or_false] at hf
  simp only [ofName, name₂_toList]
  rcases hf with rfl | rfl
  · cases parameter₂? "grid" ("grid".toList ++ ['('] ++ (shown v ++ ',' :: (shown w ++ [')']))) <;> rfl
  · cases parameter₂? "periodic_grid"
      ("periodic_grid".toList ++ ['('] ++ (shown v ++ ',' :: (shown w ++ [')']))) <;> rfl

lemma family₁_cases {label : String} {pairs : Nat → List (Nat × Nat)} (h : family₁ label pairs v = .ok t) :
    ∃ k, positive? v = some k ∧ v = .ofNat k ∧ t.document = .str (name₁ label v) ∧ 0 < t.size := by
  rw [family₁] at h
  split at h
  · cases h
  · rename_i k hk
    obtain ⟨hint, hpos⟩ := int?_of_positive? hk
    obtain ⟨u, hu, h⟩ := bind_eq_ok.mp h
    rw [named] at hu
    split at hu
    · cases hu
    · cases hu
      cases hbool : isBool v <;> rw [hbool] at h <;> cases h
      exact ⟨k, hk, ofNat_of_int? hint hbool, rfl, hpos⟩

lemma family₂_cases {label : String} {pairs : Nat → Nat → List (Nat × Nat)}
    (h : family₂ label pairs v w = .ok t) :
    ∃ j k, positive? v = some j ∧ positive? w = some k ∧ t.document = .str (name₂ label v w) ∧ 0 < t.size := by
  rw [family₂] at h
  split at h
  · cases h
  · cases h
  · rename_i j k hj hk
    rw [named] at h
    split at h
    · cases h
    · cases h
      exact ⟨j, k, hj, hk, rfl, Nat.mul_pos (int?_of_positive? hj).2 (int?_of_positive? hk).2⟩

/-- A topology is saved in a form that is read back, or by a name that is not read. -/
def Saved (t : Topology) (byTruth : Bool) : Prop :=
  if byTruth then ∃ s, t.document = .str s ∧ ofDocument t.document = .error (.topologyName s)
  else t.RoundTrips

lemma roundTrips_self (h : ofDocument t.document = .ok t) : t.RoundTrips :=
  ⟨t, h, by simp [Topology.same], rfl⟩

lemma family₁_roundTrips {f : String × (Nat → List (Nat × Nat))} (hf : f ∈ families₁)
    (h : family₁ f.1 f.2 v = .ok t) : t.RoundTrips := by
  obtain ⟨k, hv, rfl, hdocument, -⟩ := family₁_cases h
  have hread : ofDocument t.document = ofName (name₁ f.1 (.ofNat k)) := by rw [hdocument]; rfl
  rw [ofName_name₁ hf, name₁_toList, parameter₁?_shown f.1 hv] at hread
  exact roundTrips_self (hread.trans h)

lemma family₂_saved (hf : f ∈ families₂) (h : family₂ f.1 f.2 v w = .ok t) :
    t.Saved (isBool v || isBool w) := by
  obtain ⟨j, k, hv, hw, hdocument, -⟩ := family₂_cases h
  have hread : ofDocument t.document = ofName (name₂ f.1 v w) := by rw [hdocument]; rfl
  rw [ofName_name₂ hf, name₂_toList, parameter₂?_shown f.1 hv hw] at hread
  cases hbool : isBool v || isBool w with
  | true =>
    rw [hbool] at hread
    exact ⟨_, hdocument, hread⟩
  | false =>
    rw [hbool] at hread
    obtain ⟨hbool₁, hbool₂⟩ := Bool.or_eq_false_iff.mp hbool
    rw [ofNat_of_int? (int?_of_positive? hv).1 hbool₁, ofNat_of_int? (int?_of_positive? hw).1 hbool₂] at h
    exact roundTrips_self (hread.trans h)

/-- The topologies that can be built, and whether a name of theirs has a truth value for a number. -/
inductive Built : Topology → Bool → Prop
  | values {t : Topology} {size couplings : Value} (h : ofValues size couplings = .ok t) : Built t false
  | line {t : Topology} {v : Value} (h : line v = .ok t) : Built t false
  | cycle {t : Topology} {v : Value} (h : cycle v = .ok t) : Built t false
  | complete {t : Topology} {v : Value} (h : complete v = .ok t) : Built t false
  | grid {t : Topology} {v w : Value} (h : grid v w = .ok t) : Built t (isBool v || isBool w)
  | periodicGrid {t : Topology} {v w : Value} (h : periodicGrid v w = .ok t) :
      Built t (isBool v || isBool w)
  | forward {t u : Topology} {b : Bool} {m : Value} (ht : Built t b) (h : t.mapForward m = .ok u) :
      Built u false
  | backward {t u : Topology} {b : Bool} {m : Value} (ht : Built t b) (h : t.mapBackward m = .ok u) :
      Built u false

lemma renamed_of_mapForward (h : t.mapForward m = .ok u) : ∃ image, t.renamed image = .ok u := by
  obtain ⟨vs, -, h⟩ := bind_eq_ok.mp h
  exact ⟨_, h⟩

lemma renamed_of_mapBackward (h : t.mapBackward m = .ok u) : ∃ image, t.renamed image = .ok u := by
  obtain ⟨pairs, -, h⟩ := bind_eq_ok.mp h
  obtain ⟨covers, -, h⟩ := bind_eq_ok.mp h
  split at h
  · exact ⟨_, h⟩
  · obtain ⟨vs, -, h⟩ := bind_eq_ok.mp h
    cases h

lemma renamed_roundTrips (ht : 0 < t.size) (h : ∃ image, t.renamed image = .ok u) :
    0 < u.size ∧ u.RoundTrips := by
  obtain ⟨image, h⟩ := h
  obtain ⟨pairs, hpairs, rfl⟩ := renamed_cases h
  exact ⟨ht, ofChecked_roundTrips ht hpairs⟩

lemma Built.size_pos {b : Bool} (h : Built t b) : 0 < t.size := by
  induction h with
  | values h =>
    obtain ⟨n, pairs, hn, -, -, rfl⟩ := ofValues_cases h
    exact hn
  | line h | cycle h | complete h =>
    obtain ⟨_, _, _, _, hpos⟩ := family₁_cases h
    exact hpos
  | grid h | periodicGrid h =>
    obtain ⟨_, _, _, _, _, hpos⟩ := family₂_cases h
    exact hpos
  | forward _ h ih => exact (renamed_roundTrips ih (renamed_of_mapForward h)).1
  | backward _ h ih => exact (renamed_roundTrips ih (renamed_of_mapBackward h)).1

/-- Every topology is read back from what it is saved as, unless its name has a truth value for a number:
no such name is read. -/
theorem document_read_back {b : Bool} (h : Built t b) : t.Saved b := by
  cases h with
  | values h =>
    obtain ⟨n, pairs, hn, -, hpairs, rfl⟩ := ofValues_cases h
    exact ofChecked_roundTrips hn hpairs
  | line h => exact family₁_roundTrips (f := ("line", linePairs)) (by simp [families₁]) h
  | cycle h => exact family₁_roundTrips (f := ("cycle", cyclePairs)) (by simp [families₁]) h
  | complete h => exact family₁_roundTrips (f := ("complete", completePairs)) (by simp [families₁]) h
  | grid h => exact family₂_saved (f := ("grid", gridPairs)) (by simp [families₂]) h
  | periodicGrid h => exact family₂_saved (f := ("periodic_grid", periodicGridPairs)) (by simp [families₂]) h
  | forward ht h => exact (renamed_roundTrips ht.size_pos (renamed_of_mapForward h)).2
  | backward ht h => exact (renamed_roundTrips ht.size_pos (renamed_of_mapBackward h)).2

theorem torus_read_back : ∃ t, periodicGrid (.ofNat 3) (.ofNat 12) = .ok t ∧ t.RoundTrips := by
  obtain ⟨t, ht⟩ := exists_ok (x := periodicGrid (.ofNat 3) (.ofNat 12)) rfl
  exact ⟨t, ht, document_read_back (.periodicGrid ht)⟩

theorem grid_of_truth_unread : ∃ t, grid (.bool true) (.ofNat 2) = .ok t ∧ t.document = .str "grid(True,2)" ∧
    ofDocument t.document = .error (.topologyName "grid(True,2)") :=
  ⟨_, rfl, rfl, rfl⟩

end GadgetCircuits.Topology

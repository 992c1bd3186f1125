import GadgetCircuits.Proofs.Ladder
import GadgetCircuits.Proofs.PauliAnnealing

/-!
Counts of CX gates that are remembered by the support of a string. Whatever was counted and moved before
with the same memory, a count is the one that is found without it, and the effect of a gate is the count of
the moved gadgets less that of the gadgets. Through a gadget that is listed twice a gate moves twice.
-/

namespace GadgetCircuits

open List Update PauliGadget PauliPool

variable {t : Topology} {n : Nat}

namespace CountCache

variable [GraphLibrary]

/-- Every remembered count is the count of its support. -/
def Exact (t : Topology) (cache : CountCache) : Prop :=
  ∀ e ∈ cache, gateCount t e.1 = .ok e.2

lemma exact_nil (t : Topology) : Exact t [] :=
  fun _ he => absurd he not_mem_nil

/-- A step with a memory that gives what is found without one, and remembers only what is right. -/
def Agrees {α : Type} (t : Topology) (x : Update CountCache α)
    (r : Except Error α) : Prop :=
  ∀ cache, Exact t cache → ∃ cache', x.runFrom cache = (r, cache') ∧ Exact t cache'

lemma Agrees.bind {α β : Type} {x : Update CountCache α} {r : Except Error α}
    {f : α → Update CountCache β} {k : α → Except Error β} (hx : Agrees t x r)
    (hf : ∀ a, Agrees t (f a) (k a)) : Agrees t (x >>= f) (r >>= k) := by
  intro cache hcache
  obtain ⟨cache₁, hrun, hcache₁⟩ := hx cache hcache
  cases r with
  | error e => exact ⟨cache₁, by rw [runFrom_bind, hrun]; rfl, hcache₁⟩
  | ok a =>
    obtain ⟨cache₂, hrun', hcache₂⟩ := hf a cache₁ hcache₁
    exact ⟨cache₂, (runFrom_bind_ok hrun).trans hrun', hcache₂⟩

lemma agrees_pure {α : Type} (a : α) : Agrees t (pure a) (.ok a) :=
  fun cache hcache => ⟨cache, runFrom_pure a cache, hcache⟩

lemma agrees_check {α : Type} (r : Except Error α) : Agrees t (check r) r :=
  fun cache hcache => ⟨cache, runFrom_check r cache, hcache⟩

lemma agrees_mapM {α β : Type} {f : α → Update CountCache β} {k : α → Except Error β}
    (h : ∀ a, Agrees t (f a) (k a)) (xs : List α) : Agrees t (xs.mapM f) (xs.mapM k) := by
  induction xs with
  | nil => exact agrees_pure []
  | cons x xs ih =>
    rw [mapM_cons, mapM_cons]
    exact (h x).bind fun _ => ih.bind fun _ => agrees_pure _

theorem agrees_count (p : PauliGadget) :
    Agrees t (p.count t) (PauliGadget.gateCount t p.support) := by
  intro cache hcache
  rw [PauliGadget.count, runFrom_bind, runFrom_get]
  dsimp only
  cases hfind : cache.find? fun e => e.1 == p.support with
  | some e =>
    have hsupport : e.1 = p.support := by simpa using find?_some hfind
    have hcount := hcache e (mem_of_find?_eq_some hfind)
    rw [hsupport] at hcount
    exact ⟨cache, by rw [hcount]; rfl, hcache⟩
  | none =>
    cases hcount : gateCount t p.support with
    | error e => exact ⟨cache, rfl, hcache⟩
    | ok m =>
      refine ⟨cache ++ [(p.support, m)], rfl, fun e he => ?_⟩
      rcases mem_append.mp he with he | he
      · exact hcache e he
      · rw [mem_singleton.mp he]
        exact hcount

end CountCache

open CountCache

namespace PauliPolynomial

variable {p : PauliPolynomial}

/-- The count that is found without a memory. -/
def fresh [GraphLibrary] (t : Topology) (p : PauliPolynomial) : Except Error Nat :=
  ((p.count t).runFrom []).1

lemma agrees_sum [GraphLibrary] (p : PauliPolynomial) : Agrees t (p.count t) (do
    return natSum (← p.gadgets.mapM fun g => gateCount t g.support)) :=
  (agrees_mapM agrees_count p.gadgets).bind fun _ => agrees_pure _

lemma fresh_eq [GraphLibrary] (p : PauliPolynomial) : p.fresh t = (do
    return natSum (← p.gadgets.mapM fun g => gateCount t g.support)) := by
  obtain ⟨cache, hrun, -⟩ := agrees_sum p [] (exact_nil t)
  rw [fresh, hrun]

lemma agrees_fresh [GraphLibrary] (p : PauliPolynomial) : Agrees t (p.count t) (p.fresh t) := by
  rw [fresh_eq]
  exact agrees_sum p

def through (g : CliffordGate (Fin n)) (p : PauliPolynomial) : PauliPolynomial :=
  { p with gadgets := p.gadgets.map (PauliGadget.through [g]) }

/-- The change of the count if one polynomial takes the place of another. -/
def change [GraphLibrary] (t : Topology) (p q : PauliPolynomial) : Except Error Int := do
  let after ← q.fresh t
  let before ← p.fresh t
  return after - before

structure Fits (n : Nat) (p : PauliPolynomial) : Prop where
  size : p.size.same (.ofNat n) = true
  gadgets : ∀ g ∈ p.gadgets, g.Fits n

lemma Fits.check_eq (hp : p.Fits n) : p.check = .ok () := by
  have hall : ∀ gs : List PauliGadget, (∀ g ∈ gs, g.Fits n) → gs.forM (checkLength p.size) = .ok () := by
    intro gs
    induction gs with
    | nil => exact fun _ => rfl
    | cons g gs ih =>
      intro hgs
      obtain ⟨hg, hgs⟩ := forall_mem_cons.mp hgs
      rw [forM_eq_forM, forM_cons, checkLength_eq hp.size hg, ok_bind]
      exact ih hgs
  exact hall p.gadgets hp.gadgets

lemma Fits.propagated_eq (hp : p.Fits n) (g : CliffordGate (Fin n)) :
    p.propagated g.item = .ok (p.through g) := by
  have hmoved : p.gadgets.mapM (PauliGadget.propagated g.item) =
      .ok (p.gadgets.map (PauliGadget.through [g])) := by
    refine mapM_ok fun q hq => ?_
    rw [PauliGadget.propagated, (hp.gadgets q hq).propagate_run g]
    rfl
  rw [propagated, hmoved]
  rfl

lemma agrees_effect [GraphLibrary] (p : PauliPolynomial) (g : CliffordItem) :
    Agrees t (p.effect t g) (do
      p.check
      change t p (← p.propagated g)) :=
  (agrees_check _).bind fun _ => (agrees_check _).bind fun q =>
    (agrees_fresh q).bind fun _ => (agrees_fresh p).bind fun _ => agrees_pure _

lemma Fits.agrees_effect [GraphLibrary] (hp : p.Fits n) (g : CliffordGate (Fin n)) :
    Agrees t (p.effect t g.item) (change t p (p.through g)) := by
  have hagrees := PauliPolynomial.agrees_effect (t := t) p g.item
  rw [hp.check_eq, hp.propagated_eq] at hagrees
  exact hagrees

lemma Fits.through (hp : p.Fits n) (g : CliffordGate (Fin n)) : (p.through g).Fits n := by
  refine ⟨hp.size, fun _ hmem => ?_⟩
  obtain ⟨q, hq, rfl⟩ := mem_map.mp hmem
  exact (hp.gadgets q hq).through [g]

end PauliPolynomial

namespace Ladder

lemma outwards_nil [SetOrder] (fuel root : Nat) : outwards [] fuel [root] [] = [] := by
  cases fuel with
  | zero => rfl
  | succ fuel =>
    have hheads : SetOrder.arrange (some root) (neighbours [] root) = [] := (SetOrder.perm _ _).eq_nil
    simp only [outwards, hheads, filter_nil, map_nil, nil_append]
    cases fuel <;> rfl

/-- Every column has a ladder, also one without legs. -/
theorem ofColumn_exists [GraphLibrary] (ht : t.WellFormed) (hconn : t.graph.Connected)
    {column : List Bool} (hlen : column.length = t.size)
    (hforest : FindsForest t GraphLibrary.spanningForest column) :
    ∃ ladder, ofColumn t column = .ok ladder := by
  have hnames := legs_named hlen
  cases hlegs : legs column with
  | cons q rest =>
    obtain ⟨root, rfl⟩ := (hnames.mem_legs q).mp (by simp [hlegs])
    have hroot := congrArg head? hlegs
    obtain ⟨_, _, _, -, -, hladder, -⟩ := ofColumn_spec ht hconn hlen hforest hnames hroot
    exact ⟨_, hladder⟩
  | nil =>
    obtain ⟨g, hbranches, -, hg⟩ := branches_spec ht hconn hlen hnames
    have hnone : GraphLibrary.spanningForest g = [] := by
      refine eq_nil_iff_forall_not_mem.mpr fun e he => ?_
      obtain ⟨a, -⟩ := hg.joined_iff.mp ((hforest g hbranches).joined e he)
      exact eq_nil_iff_forall_not_mem.mp hlegs _ a.2
    have hempty : column.isEmpty = false := by
      obtain ⟨q⟩ := hconn.nonempty
      exact isEmpty_eq_false_iff.mpr (length_pos_iff.mp (hlen ▸ q.pos))
    refine ⟨([], 0), ?_⟩
    rw [ofColumn, hbranches, ok_bind, hnone]
    simp only [hempty, outwards_nil]
    rw [hlegs]
    rfl

end Ladder

lemma PauliPolynomial.Fits.fresh_exists [GraphLibrary] (ht : t.WellFormed)
    (hconn : t.graph.Connected) (hforest : ∀ column : List Bool, column.length = t.size →
      Ladder.FindsForest t GraphLibrary.spanningForest column)
    {p : PauliPolynomial} (hp : p.Fits t.size) : ∃ m, p.fresh t = .ok m := by
  have hgadgets : ∀ g ∈ p.gadgets, ∃ m, gateCount t g.support = .ok m := by
    intro g hg
    have hlen : g.support.length = t.size := (length_map _).trans (hp.gadgets g hg).length
    obtain ⟨ladder, hladder⟩ := Ladder.ofColumn_exists ht hconn hlen (hforest _ hlen)
    exact ⟨_, by rw [gateCount, hladder]; rfl⟩
  obtain ⟨counts, hcounts, -⟩ := mapM_exists hgadgets
  rw [fresh_eq, hcounts]
  exact ⟨natSum counts, rfl⟩

namespace PauliPool

variable {pool pool' : PauliPool} {p : Nat}

lemma Holds.fits (hp : pool.Holds n p) : (pool.view p).Fits n := by
  refine ⟨hp.size, fun g hg => ?_⟩
  obtain ⟨i, hi, rfl⟩ := mem_map.mp hg
  exact (hp.members i hi).2

/-- A pool in which every polynomial of another one has the same strings and angles. -/
def Keeps (pool pool' : PauliPool) : Prop :=
  ∀ m q, pool.Holds m q → pool'.view q = pool.view q

lemma view_eq_of_same {q : Nat} (hshared : pool'.shared q = pool.shared q)
    (h : ∀ i ∈ (pool.shared q).members, pool'.gadget i = pool.gadget i) :
    pool'.view q = pool.view q := by
  rw [view, view, hshared, map_congr_left h]

/-- The gadgets of a polynomial as new ones, and a polynomial of them. -/
def withCopy (pool : PauliPool) (v : PauliPolynomial) : PauliPool where
  gadgets := pool.gadgets ++ v.gadgets.toArray
  polynomials := pool.polynomials.push
    ⟨v.size, (List.range v.gadgets.length).map (pool.gadgets.size + ·)⟩

lemma withCopy_shared (pool : PauliPool) (v : PauliPolynomial) :
    (pool.withCopy v).shared pool.polynomials.size =
      ⟨v.size, (List.range v.gadgets.length).map (pool.gadgets.size + ·)⟩ := by
  simp [shared, withCopy]

lemma withCopy_shared_old (pool : PauliPool) (v : PauliPolynomial) {q : Nat}
    (hq : q < pool.polynomials.size) : (pool.withCopy v).shared q = pool.shared q := by
  simp [shared, withCopy, Array.getElem?_push, hq.ne]

lemma withCopy_gadget (pool : PauliPool) (v : PauliPolynomial) {i : Nat} (hi : i < pool.gadgets.size) :
    (pool.withCopy v).gadget i = pool.gadget i := by
  simp [gadget, withCopy, Array.getElem?_append_left hi]

lemma withCopy_view (pool : PauliPool) (v : PauliPolynomial) :
    (pool.withCopy v).view pool.polynomials.size = v := by
  have hgadgets : (List.range v.gadgets.length).map
      (fun i => (pool.withCopy v).gadget (pool.gadgets.size + i)) = v.gadgets := by
    refine ext_getElem (by simp) fun i _ hi => ?_
    simp [gadget, withCopy, Array.getElem?_append_right, hi]
  rw [view, withCopy_shared, map_map]
  exact congrArg (PauliPolynomial.mk v.size) hgadgets

lemma withCopy_keeps (pool : PauliPool) (v : PauliPolynomial) : pool.Keeps (pool.withCopy v) := by
  intro m q hq
  exact view_eq_of_same (withCopy_shared_old pool v hq.lt) fun i hi =>
    withCopy_gadget pool v (hq.members i hi).1

lemma withCopy_holds (hp : pool.Holds n p) :
    (pool.withCopy (pool.view p)).Holds n pool.polynomials.size := by
  have hview := pool.withCopy_view (pool.view p)
  refine ⟨?_, fun i hi => ⟨?_, hp.fits.gadgets _ ?_⟩⟩
  · rw [withCopy_shared]
    exact hp.size
  · rw [withCopy_shared] at hi
    obtain ⟨k, hk, rfl⟩ := mem_map.mp hi
    simpa [withCopy] using mem_range.mp hk
  · rw [← congrArg PauliPolynomial.gadgets hview]
    exact mem_map_of_mem hi

lemma copy_run (hp : pool.Holds n p) :
    (copy p).runFrom pool = (.ok pool.polynomials.size, pool.withCopy (pool.view p)) := by
  rw [copy, runFrom_bind_ok (runFrom_get _)]
  dsimp only
  rw [hp.fits.check_eq]
  rfl

/-- A gate that is moved through a polynomial without repeated gadgets moves through each once, and
polynomials without a gadget of it stay as they are. -/
theorem propagate_once (hp : pool.Holds n p) (hnodup : (pool.shared p).members.Nodup)
    (g : CliffordGate (Fin n)) :
    (propagate p g.item).Finishes pool fun q pool' => pool'.view p = (pool.view p).through g ∧
      pool'.view q = (pool.view p).through g ∧
      ∀ r < pool.polynomials.size, (∀ i ∈ (pool.shared r).members, i ∉ (pool.shared p).members) →
        pool'.view r = pool.view r := by
  refine (propagate_pushes hp g).mono fun q pool' ⟨hq, hpolynomials, hpassed⟩ => ?_
  have hold : ∀ r < pool.polynomials.size, pool'.shared r = pool.shared r := by
    intro r hr
    simp [shared, hpolynomials, Array.getElem?_push, hr.ne]
  have hnew : pool'.shared q = pool.shared p := by simp [shared, hq, hpolynomials]
  have hmembers : (pool.shared p).members.map pool'.gadget =
      ((pool.shared p).members.map pool.gadget).map (through [g]) := by
    rw [map_map]
    refine map_congr_left fun i hi => ?_
    rw [hpassed.gadget, count_eq_one_of_mem hnodup hi]
    rfl
  refine ⟨?_, ?_, fun r hr hapart => view_eq_of_same (hold r hr) fun i hi => ?_⟩
  · rw [view, hold p hp.lt, hmembers]
    rfl
  · rw [view, hnew, hmembers]
    rfl
  · rw [hpassed.gadget, count_eq_zero_of_not_mem (hapart i hi)]
    exact PauliGadget.through_nil _

theorem copy_moved (hp : pool.Holds n p) (g : CliffordGate (Fin n)) :
    ∃ copied pool₁ q pool₂, (copy p).runFrom pool = (.ok copied, pool₁) ∧
      (propagate copied g.item).runFrom pool₁ = (.ok q, pool₂) ∧
      pool₂.view copied = (pool.view p).through g ∧ pool.Keeps pool₂ := by
  have hshared := pool.withCopy_shared (pool.view p)
  have hnodup : ((pool.withCopy (pool.view p)).shared pool.polynomials.size).members.Nodup := by
    rw [hshared]
    exact nodup_range.map fun _ _ h => Nat.add_left_cancel h
  obtain ⟨q, pool₂, hrun, hcopy, -, hapart⟩ := propagate_once (withCopy_holds hp) hnodup g
  rw [withCopy_view] at hcopy
  refine ⟨_, _, q, pool₂, copy_run hp, hrun, hcopy, fun m r hr => ?_⟩
  have hold := hapart r (by simpa [withCopy] using hr.lt.le) fun i hi hmem => by
    rw [withCopy_shared_old pool _ hr.lt] at hi
    rw [hshared] at hmem
    obtain ⟨k, -, rfl⟩ := mem_map.mp hmem
    exact absurd (hr.members _ hi).1 (by omega)
  exact hold.trans (withCopy_keeps pool _ m r hr)

end PauliPool

namespace PauliAnnealing

variable {s s₀ : State} {p : Nat}

section

variable [GraphLibrary]

lemma counting_agrees {α : Type} {x : Update CountCache α} {r : Except Error α}
    (h : Agrees t x r) (hs : Exact t s.cache) :
    ∃ cache, (counting x).runFrom s = (r, { s with cache }) ∧ Exact t cache := by
  obtain ⟨cache, hrun, hcache⟩ := h s.cache hs
  exact ⟨cache, by rw [counting, runFrom_within, hrun], hcache⟩

inductive Call where
  | count (p : Nat)
  | effect (p : Nat) (g : CliffordItem)
  | propagate (p : Nat) (g : CliffordItem)

def Call.perform (t : Topology) : Call → Update State Int
  | count p => do return ((← counting (((← get).pool.view p).count t)) : Nat)
  | effect p g => do counting (((← get).pool.view p).effect t g)
  | propagate p g => do return ((← onPool (PauliPool.propagate p g)) : Nat)

/-- The state after some steps, of which any may have failed. -/
def after (t : Topology) (s : State) (calls : List Call) : State :=
  calls.foldl (fun s call => ((call.perform t).runFrom s).2) s

lemma count_run (hs : Exact t s.cache) (p : Nat) :
    ∃ cache, ((Call.count p).perform t).runFrom s =
      (((s.pool.view p).fresh t).map Int.ofNat, { s with cache }) ∧ Exact t cache := by
  obtain ⟨cache, hrun, hcache⟩ := counting_agrees (s.pool.view p).agrees_fresh hs
  refine ⟨cache, ?_, hcache⟩
  rw [Call.perform, runFrom_bind_ok (runFrom_get s), runFrom_bind, hrun]
  cases (s.pool.view p).fresh t <;> rfl

lemma effect_run (hs : Exact t s.cache) (p : Nat) (g : CliffordItem) {r : Except Error Int}
    (hr : Agrees t ((s.pool.view p).effect t g) r) :
    ∃ cache, ((Call.effect p g).perform t).runFrom s = (r, { s with cache }) ∧ Exact t cache := by
  rw [Call.perform, runFrom_bind_ok (runFrom_get s)]
  exact counting_agrees hr hs

lemma perform_exact (hs : Exact t s.cache) (call : Call) :
    Exact t ((call.perform t).runFrom s).2.cache := by
  cases call with
  | count p =>
    obtain ⟨cache, hrun, hcache⟩ := count_run hs p
    rw [hrun]
    exact hcache
  | effect p g =>
    obtain ⟨cache, hrun, hcache⟩ := effect_run hs p g ((s.pool.view p).agrees_effect g)
    rw [hrun]
    exact hcache
  | propagate p g =>
    rw [Call.perform, runFrom_bind, onPool, runFrom_within]
    cases ((propagate p g).runFrom s.pool).1 <;> exact hs

lemma after_exact (hs : Exact t s.cache) (calls : List Call) : Exact t (after t s calls).cache := by
  induction calls generalizing s with
  | nil => exact hs
  | cons call calls ih => exact ih (perform_exact hs call)

/-- With a memory that is shared and empty at first every count is the one that is found without it, and the
effect of a gate is the count of the moved gadgets less that of the gadgets, which stay as they are. A copy of
the polynomial that the gate is moved through has the moved gadgets, and so has the polynomial itself if it
lists none twice. On a connected topology every minimum spanning forest gives counts. -/
theorem shared_memory_exact {calls : List Call} (hstart : s₀.cache = [])
    (hs : after t s₀ calls = s) (p : Nat) :
    (∃ cache, ((Call.count p).perform t).runFrom s =
      (((s.pool.view p).fresh t).map Int.ofNat, { s with cache })) ∧
    ∀ (n : Nat) (g : CliffordGate (Fin n)), s.pool.Holds n p →
      (∃ cache, ((Call.effect p g.item).perform t).runFrom s =
        (PauliPolynomial.change t (s.pool.view p) ((s.pool.view p).through g), { s with cache })) ∧
      (∃ copied pool₁ q pool₂, (PauliPool.copy p).runFrom s.pool = (.ok copied, pool₁) ∧
        (PauliPool.propagate copied g.item).runFrom pool₁ = (.ok q, pool₂) ∧
        pool₂.view copied = (s.pool.view p).through g ∧ s.pool.Keeps pool₂) ∧
      ((s.pool.shared p).members.Nodup → ∃ (q : Nat) (pool : PauliPool),
        ((Call.propagate p g.item).perform t).runFrom s = (.ok q, { s with pool }) ∧
        pool.view p = (s.pool.view p).through g ∧ pool.view q = (s.pool.view p).through g) ∧
      (t.WellFormed → t.graph.Connected → n = t.size →
        (∀ column : List Bool, column.length = n → Ladder.FindsForest t Graph.prim column) ∧
        ((∀ column : List Bool, column.length = n →
            Ladder.FindsForest t GraphLibrary.spanningForest column) →
          ∃ after before : Nat, ((s.pool.view p).through g).fresh t = .ok after ∧
            (s.pool.view p).fresh t = .ok before ∧
            PauliPolynomial.change t (s.pool.view p) ((s.pool.view p).through g) =
              .ok (after - before))) := by
  have hexact : Exact t s.cache := by
    rw [← hs]
    exact after_exact (hstart ▸ exact_nil t) calls
  obtain ⟨cache, hcount, -⟩ := count_run hexact p
  refine ⟨⟨cache, hcount⟩, fun n g hp => ⟨?_, copy_moved hp g, fun hnodup => ?_, ?_⟩⟩
  · obtain ⟨cache, heffect, -⟩ := effect_run hexact p g.item (hp.fits.agrees_effect g)
    exact ⟨cache, heffect⟩
  · obtain ⟨q, pool, hrun, hview, hview', -⟩ := propagate_once hp hnodup g
    refine ⟨q, pool, ?_, hview, hview'⟩
    rw [Call.perform, runFrom_bind, onPool, runFrom_within, hrun]
    rfl
  · rintro ht hconn rfl
    refine ⟨fun column hlen => Ladder.prim_findsForest ht hconn hlen, fun hforest => ?_⟩
    obtain ⟨after, hafter⟩ := (hp.fits.through g).fresh_exists ht hconn hforest
    obtain ⟨before, hbefore⟩ := hp.fits.fresh_exists ht hconn hforest
    refine ⟨after, before, hafter, hbefore, ?_⟩
    rw [PauliPolynomial.change, hafter, hbefore]
    rfl

end

open Ladder (lineOfFive lineOfFive_connected)

def wideGadgets : PauliPool where
  gadgets := #[⟨.expr (.angle ⟨1 / 4⟩), [.x, .i, .z, .i, .i]⟩, ⟨.expr (.angle ⟨1 / 2⟩), [.i, .y, .i, .i, .x]⟩]
  polynomials := #[⟨.ofNat 5, [0, 1]⟩]

def entangleEnds : CliffordGate (Fin 5) :=
  .two .cx 0 4

theorem wideGadgets_memory_exact : ∃ s, after lineOfFive (.start wideGadgets (.ofSeed 1) 0) [.count 0] = s ∧
    s.pool.Holds 5 0 ∧ lineOfFive.WellFormed ∧ lineOfFive.graph.Connected ∧
    ∃ (after before : Nat) (cache : CountCache),
      (s.pool.view 0).fresh lineOfFive = .ok before ∧
      ((s.pool.view 0).through entangleEnds).fresh lineOfFive = .ok after ∧
      ((Call.effect 0 entangleEnds.item).perform lineOfFive).runFrom s =
        (.ok (after - before), { s with cache }) := by
  obtain ⟨hwf, hconn⟩ := lineOfFive_connected
  obtain ⟨cache, hrun, -⟩ :=
    count_run (s := .start wideGadgets (.ofSeed 1) 0) (exact_nil lineOfFive) 0
  have hafter : after lineOfFive (.start wideGadgets (.ofSeed 1) 0) [.count 0] =
      { State.start wideGadgets (.ofSeed 1) 0 with cache } := by
    rw [after, foldl_cons, hrun]
    rfl
  have hholds : wideGadgets.Holds 5 0 := by
    refine ⟨by cbv, fun i hi => ?_⟩
    have hmem : i = 0 ∨ i = 1 := by simpa [wideGadgets, shared] using hi
    rcases hmem with rfl | rfl
    · exact ⟨by decide, rfl, _, rfl⟩
    · exact ⟨by decide, rfl, _, rfl⟩
  obtain ⟨-, heffect⟩ := shared_memory_exact rfl hafter 0
  obtain ⟨⟨cache', hchange⟩, -, -, hcounts⟩ := heffect 5 entangleEnds hholds
  obtain ⟨hprim, hfound⟩ := hcounts hwf hconn rfl
  obtain ⟨after, before, hafter', hbefore, heq⟩ := hfound hprim
  exact ⟨_, hafter, hholds, hwf, hconn, after, before, cache', hbefore, hafter', heq ▸ hchange⟩

def coupledPair : Topology where
  size := 2
  couplings := [(0, 1)]

def coupledCX : CliffordGate (Fin 2) :=
  .two .cx first second

def repeatedGadget : PauliPool where
  gadgets := #[⟨.expr (.angle ⟨1 / 4⟩), [.x, .i]⟩]
  polynomials := #[⟨.ofNat 2, [0, 0]⟩]

/-- The gate moves through the only gadget twice, which is then as before. A copy of it passes once. -/
theorem repeated_gadget_effect :
    (((repeatedGadget.view 0).effect coupledPair coupledCX.item).runFrom []).1 = .ok 4 ∧
    (repeatedGadget.view 0).fresh coupledPair = .ok 0 ∧
    ∃ q pool, (PauliPool.propagate 0 coupledCX.item).runFrom repeatedGadget = (.ok q, pool) ∧
      (pool.view 0).fresh coupledPair = .ok 0 ∧ (pool.view q).fresh coupledPair = .ok 0 := by
  have hholds : repeatedGadget.Holds 2 0 := by
    refine ⟨by cbv, fun i hi => ?_⟩
    obtain rfl : i = 0 := by simpa [repeatedGadget, shared] using hi
    exact ⟨by decide, rfl, _, rfl⟩
  obtain ⟨cache, heffect, -⟩ := hholds.fits.agrees_effect coupledCX [] (exact_nil coupledPair)
  obtain ⟨q, pool, hrun, rfl, hpolynomials, hpassed⟩ := propagate_pushes hholds coupledCX
  have hview : ∀ r < 2, pool.view r = ⟨.ofNat 2, [pool.gadget 0, pool.gadget 0]⟩ := by
    intro r hr
    rw [view, shared, hpolynomials]
    interval_cases r <;> rfl
  refine ⟨by rw [heffect]; cbv, by cbv, _, pool, hrun, ?_, ?_⟩
  · rw [hview 0 (by decide), hpassed.gadget]
    cbv
  · rw [hview _ (by decide), hpassed.gadget]
    cbv

end PauliAnnealing

end GadgetCircuits

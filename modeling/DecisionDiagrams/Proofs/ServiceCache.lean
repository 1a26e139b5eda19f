/-
How the calls of a service change its cache.

A request for a diagram that is turned away (a blank formula, an assignment that cannot be
read) changes nothing. Otherwise it looks the formula up: a cached diagram stays cached, with
what the request made of it, when the request succeeds, and is dropped when it fails; a new
diagram is cached, evicting the oldest ones as the cache does, only when the request succeeds.
A presentation (view, DOT text, edges) writes the diagram back under its formula whatever
happens, so the cached formulas stay as they are.

Every diagram of the cache is the diagram of the formula it is cached under: a made diagram
has the formula it was made from (`Diagram.create_formula`), and nothing a request or a
presentation does writes the formula (`Service.respond_formula`, `Diagram.view_formula`, …).

* `Service.Call` — one call of the interface, and `Call.run` its outcome;
* `Service.CacheLaw` — what a call does to the cache;
* `Service.reachable_cacheLaw` — on every service reached by calls, every cached diagram is
  the diagram of its formula and every call changes the cache as the law says.
-/
import DecisionDiagrams.Service
import DecisionDiagrams.Proofs.DiagramFormula
import DecisionDiagrams.Proofs.FifoEntries

namespace DecisionDiagrams

/-- The assignment a request asks to highlight: none for an empty text, else the text read. -/
def Request.assignment (req : Request) : Except Failure (Option Assignment) :=
  if req.evalPath.isEmpty then .ok none else (Assignment.parse req.evalPath).map some

namespace Service

open Diagram

section Formula

variable (x : String)

theorem buildKind_formula (k : Kind) : Preserves (·.formula = x) (buildKind k) :=
  Preserves.bind (build_formula x k) fun _ => Preserves.pure _

theorem orderKind_formula (k : Kind) (s : String) (mp : Nat) :
    Preserves (·.formula = x) (orderKind k s mp) :=
  Preserves.bind (autoOrder_formula x k s mp) fun _ => Preserves.pure _

/-- The work of a request on its diagram keeps the diagram's formula. -/
theorem respond_formula (formula : String) (req : Request) (cached : Bool)
    (a : Option Assignment) (mp : Nat) :
    Preserves (·.formula = x) (respond formula req cached a mp) := by
  unfold respond
  extract_lets tail rest
  -- after the build or the automatic order: the highlight, when one is asked for, and the view
  have htail : ∀ r, Preserves (·.formula = x) (tail r) := by
    intro r
    simp only [tail]
    split
    · exact Preserves.pure _
    · split
      · refine Preserves.bind (highlight_formula x req.kind _) fun r => ?_
        split
        · exact Preserves.pure _
        · exact Preserves.bind (view_formula x req.kind) fun v => by
            split <;> exact Preserves.pure _
      · exact Preserves.bind (view_formula x req.kind) fun v => by
          split <;> exact Preserves.pure _
  have hrest : ∀ u, Preserves (·.formula = x) (rest u) := by
    intro u
    simp only [rest]
    split
    · exact Preserves.bind (Preserves.map (buildKind_formula x req.kind) _) htail
    · exact Preserves.bind (Preserves.map (orderKind_formula x req.kind _ mp) _) htail
  split
  · -- a manual order for a cached diagram comes first
    refine Preserves.get_bind fun d h => ?_
    split
    next => exact h
    next d' hd' =>
      exact (Preserves.bind (P := (·.formula = x))
        (Preserves.set ((setOrder_formula hd').trans h)) hrest) d h
  · exact hrest ()

end Formula

/-- One call of the service's interface. -/
inductive Call
  | generate (req : Request)
  | view (formula : String) (k : Kind)
  | dot (formula : String) (k : Kind)
  | edges (formula : String) (k : Kind)

/-- Whether a computation on a service succeeded, and the service it leaves. -/
def outcome {α : Type} (x : ServiceM (Except Failure α)) (s : Service) : Bool × Service :=
  ((x.run s).1.toBool, (x.run s).2)

/-- Whether a call succeeded, and the service it leaves. -/
def Call.run : Call → Service → Bool × Service
  | .generate req => outcome (Service.generate req)
  | .view t k => outcome (Service.view t k)
  | .dot t k => outcome (Service.dot t k)
  | .edges t k => outcome (Service.edges t k)

/-- The services reached from a new one by calls. -/
inductive Reachable : Service → Prop
  | create (capacity : Int) (limits : Limits) (maxPasses : Nat) :
    Reachable (create capacity limits maxPasses)
  | step {s : Service} (call : Call) : Reachable s → Reachable (call.run s).2

/-- Every cached diagram is the diagram of the formula it is cached under. -/
def Keyed (s : Service) : Prop :=
  ∀ e ∈ s.cache.entries, e.2.formula = e.1

/-- What a call does to the cache, given whether it succeeded and the service it leaves. The
settings of the service never change. -/
def CacheLaw (s : Service) : Call → Bool × Service → Prop
  | .generate req, (ok, s') =>
    s'.limits = s.limits ∧ s'.maxPasses = s.maxPasses ∧
    if (stripSpaces req.formula).isEmpty = true ∨ req.assignment.toBool = false then
      ok = false ∧ s'.cache = s.cache
    else if stripSpaces req.formula ∈ s.cached then
      if ok then ∃ d, s'.cache = s.cache.replace (stripSpaces req.formula) d
      else s'.cache = (s.cache.remove (stripSpaces req.formula)).2
    else
      if ok then ∃ d : Diagram, d.formula = stripSpaces req.formula ∧
        s'.cache = (s.cache.insert (stripSpaces req.formula) d).2
      else s'.cache = s.cache
  | .view _ _, (_, s') | .dot _ _, (_, s') | .edges _ _, (_, s') =>
    s'.limits = s.limits ∧ s'.maxPasses = s.maxPasses ∧ s'.cached = s.cached

theorem keyed_create (capacity : Int) (limits : Limits) (maxPasses : Nat) :
    (create capacity limits maxPasses).Keyed := by
  intro e he
  simp [create, Fifo.create] at he

namespace Keyed

variable {s : Service} (hk : s.Keyed)
include hk

theorem replace {f : String} {d : Diagram} (hd : d.formula = f) :
    Keyed { s with cache := s.cache.replace f d } := by
  intro e he
  obtain ⟨⟨j, w⟩, hmem, rfl⟩ := List.mem_map.1 he
  by_cases hj : j = f
  · simp [hj, hd]
  · simpa [hj] using hk _ hmem

theorem remove (f : String) : Keyed { s with cache := (s.cache.remove f).2 } := by
  intro e he
  rw [Fifo.remove_eq] at he
  exact hk e (List.mem_of_mem_filter he)

theorem insert {f : String} {d : Diagram} (hd : d.formula = f) :
    Keyed { s with cache := (s.cache.insert f d).2 } := by
  by_cases hf : f ∈ s.cache.keys
  · rw [Fifo.insert_of_mem hf]
    exact hk.replace hd
  · -- the evicted entries go from the front, the new one comes last
    rw [Fifo.insert_of_not_mem hf]
    intro e he
    rcases List.mem_append.1 he with he | he
    · exact hk e (List.mem_of_mem_drop he)
    · rw [List.mem_singleton.1 he]
      exact hd

end Keyed

theorem make_formula {s : Service} {f vo : String} {d : Diagram} (h : s.make f vo = .ok d) :
    d.formula = f :=
  create_formula h

/-- A request whose formula is blank or whose assignment cannot be read fails at once, and
leaves the service as it was. -/
theorem generate_run_turned_away {req : Request} {s : Service}
    (h : (stripSpaces req.formula).isEmpty = true ∨ req.assignment.toBool = false) :
    ∃ f, (generate req).run s = (.error f, s) := by
  by_cases hf : (stripSpaces req.formula).isEmpty = true
  · refine ⟨.of .missingFormula, ?_⟩
    simp only [generate, hf, if_true]
    rfl
  · obtain ⟨f, ha⟩ : ∃ f, req.assignment = .error f := by
      cases ha : req.assignment with
      | ok a => simp [ha, Except.toBool, hf] at h
      | error f => exact ⟨f, rfl⟩
    refine ⟨f, ?_⟩
    have ha' : (if req.evalPath.isEmpty = true then Except.ok none
        else (Assignment.parse req.evalPath).map some) = Except.error f := ha
    simp only [generate, hf, Bool.false_eq_true, if_false, ha']
    rfl

/-- A request that is not turned away looks the formula up. A cached diagram answers the
request and stays cached, with what the request made of it, when the request succeeds; it is
dropped when the request fails. A new diagram is cached only when the request succeeds on it. -/
theorem generate_run_accepted {req : Request} {s : Service} {a : Option Assignment}
    (hf : (stripSpaces req.formula).isEmpty = false) (ha : req.assignment = .ok a) :
    (generate req).run s =
      match s.cache.lookup (stripSpaces req.formula) with
      | some d =>
        match (respond (stripSpaces req.formula) req true a s.maxPasses).run d with
        | (.ok resp, d') =>
          (.ok resp, { s with cache := s.cache.replace (stripSpaces req.formula) d' })
        | (.error e, _) =>
          (.error e, { s with cache := (s.cache.remove (stripSpaces req.formula)).2 })
      | none =>
        match s.make (stripSpaces req.formula) req.varOrder with
        | .error e => (.error e, s)
        | .ok d =>
          match (respond (stripSpaces req.formula) req false a s.maxPasses).run d with
          | (.ok resp, d') =>
            (.ok resp, { s with cache := (s.cache.insert (stripSpaces req.formula) d').2 })
          | (.error e, _) => (.error e, s) := by
  have ha' : (if req.evalPath.isEmpty = true then Except.ok none
      else (Assignment.parse req.evalPath).map some) = Except.ok a := ha
  simp only [generate, hf, Bool.false_eq_true, if_false, ha', StateT.run_bind, StateT.run_get,
    pure_bind]
  cases s.cache.lookup (stripSpaces req.formula) with
  | some d =>
    dsimp only
    rcases (respond (stripSpaces req.formula) req true a s.maxPasses).run d with ⟨r, d'⟩
    cases r <;> rfl
  | none =>
    dsimp only
    cases s.make (stripSpaces req.formula) req.varOrder with
    | error e => rfl
    | ok d =>
      dsimp only
      rcases (respond (stripSpaces req.formula) req false a s.maxPasses).run d with ⟨r, d'⟩
      cases r <;> rfl

/-- A request for a diagram changes the cache as the law says, and keeps every cached diagram
under its own formula. -/
theorem generate_law {s : Service} (hk : s.Keyed) (req : Request) :
    s.CacheLaw (.generate req) ((Call.generate req).run s) ∧
      ((Call.generate req).run s).2.Keyed := by
  by_cases hta : (stripSpaces req.formula).isEmpty = true ∨ req.assignment.toBool = false
  · obtain ⟨f, hrun⟩ := generate_run_turned_away hta (s := s)
    have hcall : (Call.generate req).run s = (false, s) := by simp [Call.run, outcome, hrun, Except.toBool]
    rw [hcall]
    exact ⟨⟨rfl, rfl, by rw [if_pos hta]; exact ⟨rfl, rfl⟩⟩, hk⟩
  obtain ⟨hf, hass⟩ := not_or.1 hta
  obtain ⟨a, ha⟩ : ∃ a, req.assignment = .ok a := by
    cases ha : req.assignment with
    | ok a => exact ⟨a, rfl⟩
    | error f => simp [ha, Except.toBool] at hass
  have hrun := generate_run_accepted (s := s) (by simpa using hf) ha
  cases hl : s.cache.lookup (stripSpaces req.formula) with
  | some d =>
    -- a cached diagram: kept with what the request made of it, or dropped
    have hmem := Fifo.mem_of_lookup_eq_some hl
    have hin : stripSpaces req.formula ∈ s.cached := List.mem_map.2 ⟨_, hmem, rfl⟩
    have hd' := respond_formula (stripSpaces req.formula) (stripSpaces req.formula) req true a
      s.maxPasses d (hk _ hmem)
    rcases hr : (respond (stripSpaces req.formula) req true a s.maxPasses).run d with ⟨r, d'⟩
    rw [hr] at hd'
    cases r with
    | ok resp =>
      have hcall : (Call.generate req).run s =
          (true, { s with cache := s.cache.replace (stripSpaces req.formula) d' }) := by
        simp [Call.run, outcome, hrun, hl, hr, Except.toBool]
      rw [hcall]
      exact ⟨⟨rfl, rfl, by rw [if_neg hta, if_pos hin]; exact ⟨d', rfl⟩⟩, hk.replace hd'⟩
    | error e =>
      have hcall : (Call.generate req).run s =
          (false, { s with cache := (s.cache.remove (stripSpaces req.formula)).2 }) := by
        simp [Call.run, outcome, hrun, hl, hr, Except.toBool]
      rw [hcall]
      exact ⟨⟨rfl, rfl, by rw [if_neg hta, if_pos hin]; rfl⟩, hk.remove _⟩
  | none =>
    -- a new diagram: cached only when the request succeeds on it
    have hnin : stripSpaces req.formula ∉ s.cached := (Fifo.lookup_eq_none_iff _ _).1 hl
    cases hm : s.make (stripSpaces req.formula) req.varOrder with
    | error e =>
      have hcall : (Call.generate req).run s = (false, s) := by
        simp [Call.run, outcome, hrun, hl, hm, Except.toBool]
      rw [hcall]
      exact ⟨⟨rfl, rfl, by rw [if_neg hta, if_neg hnin]; rfl⟩, hk⟩
    | ok d =>
      have hd' := respond_formula (stripSpaces req.formula) (stripSpaces req.formula) req false a
        s.maxPasses d (make_formula hm)
      rcases hr : (respond (stripSpaces req.formula) req false a s.maxPasses).run d with ⟨r, d'⟩
      rw [hr] at hd'
      cases r with
      | ok resp =>
        have hcall : (Call.generate req).run s =
            (true, { s with cache := (s.cache.insert (stripSpaces req.formula) d').2 }) := by
          simp [Call.run, outcome, hrun, hl, hm, hr, Except.toBool]
        rw [hcall]
        exact ⟨⟨rfl, rfl, by rw [if_neg hta, if_neg hnin]; exact ⟨d', hd', rfl⟩⟩, hk.insert hd'⟩
      | error e =>
        have hcall : (Call.generate req).run s = (false, s) := by
          simp [Call.run, outcome, hrun, hl, hm, hr, Except.toBool]
        rw [hcall]
        exact ⟨⟨rfl, rfl, by rw [if_neg hta, if_neg hnin]; rfl⟩, hk⟩

/-- Presenting a cached diagram builds the kind asked for when it is missing and keeps the
diagram cached, under its formula, with what the presentation made of it. -/
theorem present_law {α : Type} {s : Service} (hk : s.Keyed) (text : String) (k : Kind)
    {act : DiagramM (Except Failure α)} (hact : ∀ x, Preserves (·.formula = x) act) :
    ((present text k act).run s).2.limits = s.limits ∧
      ((present text k act).run s).2.maxPasses = s.maxPasses ∧
      ((present text k act).run s).2.cached = s.cached ∧ ((present text k act).run s).2.Keyed := by
  by_cases hf : (stripSpaces text).isEmpty = true
  · have hrun : (present text k act).run s = (.error (.of .missingFormula), s) := by
      simp only [present, hf, if_true]
      rfl
    rw [hrun]
    exact ⟨rfl, rfl, rfl, hk⟩
  cases hl : s.cache.lookup (stripSpaces text) with
  | none =>
    have hrun : (present text k act).run s =
        (.error (.of (.notFound (stripSpaces text))), s) := by
      simp only [present, hf, Bool.false_eq_true, if_false, StateT.run_bind, StateT.run_get,
        pure_bind, hl]
      rfl
    rw [hrun]
    exact ⟨rfl, rfl, rfl, hk⟩
  | some d =>
    have hmem := Fifo.mem_of_lookup_eq_some hl
    simp only [present, hf, Bool.false_eq_true, if_false, StateT.run_bind, StateT.run_get,
      pure_bind, hl]
    split
    next r d' hb =>
      have hd' : d'.formula = stripSpaces text := by
        refine Preserves.run_eq (P := (·.formula = stripSpaces text)) ?_ hb (hk _ hmem)
        split
        · refine Preserves.bind (buildKind_formula _ k) fun r => ?_
          split
          · exact Preserves.pure _
          · exact hact _
        · exact hact _
      refine ⟨rfl, rfl, ?_, hk.replace hd'⟩
      show (s.cache.replace _ d').keys = s.cache.keys
      simp

/-- Every call changes the cache as the law says, and keeps every cached diagram under its own
formula. -/
theorem call_law {s : Service} (hk : s.Keyed) :
    ∀ call : Call, s.CacheLaw call (call.run s) ∧ (call.run s).2.Keyed
  | .generate req => generate_law hk req
  | .view t k =>
    have h := present_law hk t k (view_formula · k)
    ⟨⟨h.1, h.2.1, h.2.2.1⟩, h.2.2.2⟩
  | .dot t k =>
    have h := present_law hk t k (dot_formula · k)
    ⟨⟨h.1, h.2.1, h.2.2.1⟩, h.2.2.2⟩
  | .edges t k =>
    have h := present_law hk t k (edges_formula · k)
    ⟨⟨h.1, h.2.1, h.2.2.1⟩, h.2.2.2⟩

theorem Reachable.keyed {s : Service} (hs : s.Reachable) : s.Keyed := by
  induction hs with
  | create capacity limits maxPasses => exact keyed_create capacity limits maxPasses
  | step call _ ih => exact (call_law ih call).2

/-- On every service reached by calls, every cached diagram is the diagram of the formula it is
cached under, and the next call changes the cache as the law says. -/
theorem reachable_cacheLaw {s : Service} (hs : s.Reachable) (call : Call) :
    s.Keyed ∧ s.CacheLaw call (call.run s) :=
  ⟨hs.keyed, (call_law hs.keyed call).1⟩

theorem reachable_cacheLaw_new :
    (create 2 {} 0).Reachable ∧ ((create 2 {} 0).Keyed ∧
      (create 2 {} 0).CacheLaw (.view "a" .bdd) ((Call.view "a" .bdd).run (create 2 {} 0))) :=
  ⟨.create 2 {} 0, reachable_cacheLaw (.create 2 {} 0) _⟩

end Service

end DecisionDiagrams

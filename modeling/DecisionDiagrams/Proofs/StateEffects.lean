/-
Computations that keep a property of their state, and what sifting does to the caller's state.

The sifter runs in any monad. Over a state monad, its own memory of costs and its counter sit
above the caller's state, which only the cost function reads or changes. So a property of the
caller's state that every evaluation of the cost keeps is kept by the whole search, whatever it
remembers and however many passes it makes.

* `Preserves` — a computation on a state that keeps a property of the state.
* `Order.SiftPreserves` — a computation of the sifter that keeps a property of the caller's
  state, whatever the sifter's own memory.
* `Order.sift_preserves` — sifting keeps what each evaluation of the cost keeps.
-/
import DecisionDiagrams.Order.Sift

namespace DecisionDiagrams

variable {σ β γ : Type}

/-- A computation on a state that keeps the property `P` of the state. -/
def Preserves (P : σ → Prop) (x : StateM σ β) : Prop :=
  ∀ s, P s → P (x.run s).2

namespace Preserves

variable {P : σ → Prop}

theorem pure (b : β) : Preserves P (Pure.pure b : StateM σ β) := fun _ hs => hs

theorem bind {x : StateM σ β} {f : β → StateM σ γ} (hx : Preserves P x)
    (hf : ∀ b, Preserves P (f b)) : Preserves P (x >>= f) :=
  fun s hs => hf (x.run s).1 (x.run s).2 (hx s hs)

theorem get : Preserves P (MonadState.get : StateM σ σ) := fun _ hs => hs

/-- What follows a read of the state runs from the state it read. -/
theorem get_bind {f : σ → StateM σ β} (hf : ∀ s, P s → P ((f s).run s).2) :
    Preserves P (MonadState.get >>= f) := hf

theorem set {s' : σ} (h : P s') : Preserves P (MonadStateOf.set s' : StateM σ PUnit) :=
  fun _ _ => h

/-- A computation that ends by writing a state and answering keeps what the written state has. -/
theorem set_pure {s' : σ} (h : P s') (b : β) :
    Preserves P (MonadStateOf.set s' >>= fun _ => (Pure.pure b : StateM σ β)) := fun _ _ => h

theorem modify {f : σ → σ} (hf : ∀ s, P s → P (f s)) : Preserves P (modify f : StateM σ PUnit) :=
  hf

theorem map {x : StateM σ β} (hx : Preserves P x) (f : β → γ) : Preserves P (f <$> x) := hx

/-- A run from a state with the property ends in a state with it. -/
theorem run_eq {x : StateM σ β} (hx : Preserves P x) {s s' : σ} {b : β} (h : x.run s = (b, s'))
    (hs : P s) : P s' := by
  simpa [h] using hx s hs

end Preserves

namespace Order

variable {ε : Type} {P : σ → Prop}

/-- A computation of the sifter over a state monad that keeps the property `P` of the caller's
state, whatever the sifter's own memory. -/
def SiftPreserves (P : σ → Prop) (x : SiftM (StateM σ) ε β) : Prop :=
  ∀ t s, P s → P ((x.run.run t).run s).2

/-- A failure of the sifter stops the computation with the states it leaves. -/
theorem siftM_run_bind (x : SiftM (StateM σ) ε β) (f : β → SiftM (StateM σ) ε γ)
    (t : Std.HashMap String Int × Nat) (s : σ) :
    ((x >>= f).run.run t).run s = match (x.run.run t).run s with
      | ((.ok b, t'), s') => ((f b).run.run t').run s'
      | ((.error e, t'), s') => ((.error e, t'), s') := by
  simp only [ExceptT.run_bind, StateT.run_bind]
  rcases (x.run.run t).run s with ⟨⟨r, t'⟩, s'⟩
  cases r <;> rfl

namespace SiftPreserves

theorem pure (b : β) : SiftPreserves P (Pure.pure b : SiftM (StateM σ) ε β) := fun _ _ hs => hs

theorem bind {x : SiftM (StateM σ) ε β} {f : β → SiftM (StateM σ) ε γ} (hx : SiftPreserves P x)
    (hf : ∀ b, SiftPreserves P (f b)) : SiftPreserves P (x >>= f) := by
  intro t s hs
  rw [siftM_run_bind]
  have hx' := hx t s hs
  rcases hr : (x.run.run t).run s with ⟨⟨r, t'⟩, s'⟩
  rw [hr] at hx'
  cases r with
  | ok b => exact hf b t' s' hx'
  | error e => exact hx'

theorem get :
    SiftPreserves P (MonadState.get : SiftM (StateM σ) ε (Std.HashMap String Int × Nat)) :=
  fun _ _ hs => hs

theorem modify (f : Std.HashMap String Int × Nat → Std.HashMap String Int × Nat) :
    SiftPreserves P (modify f : SiftM (StateM σ) ε Unit) := fun _ _ hs => hs

theorem throw (e : List String × ε) : SiftPreserves P (throw e : SiftM (StateM σ) ε β) :=
  fun _ _ hs => hs

/-- A computation of the caller, run by the sifter, keeps what it keeps. -/
theorem lift {x : StateM σ β} (hx : Preserves P x) :
    SiftPreserves P (liftM (liftM x : StateT (Std.HashMap String Int × Nat) (StateM σ) β) :
      SiftM (StateM σ) ε β) :=
  fun _ s hs => hx s hs

end SiftPreserves

theorem foldlM_preserves {α δ : Type} {f : δ → α → SiftM (StateM σ) ε δ}
    (hf : ∀ d a, SiftPreserves P (f d a)) :
    ∀ (l : List α) (init : δ), SiftPreserves P (l.foldlM f init)
  | [], _ => SiftPreserves.pure _
  | a :: l, init => by
    rw [List.foldlM_cons]
    exact SiftPreserves.bind (hf init a) fun d => foldlM_preserves hf l d

section Sift

variable {cost : List String → StateM σ (Except ε Int)} (hc : ∀ o, Preserves P (cost o))
include hc

/-- An evaluation answers from memory, or asks the cost function once. -/
theorem evalOrder_preserves (o : List String) : SiftPreserves P (evalOrder cost o) := by
  unfold evalOrder
  refine SiftPreserves.bind SiftPreserves.get fun memo => ?_
  split
  · exact SiftPreserves.pure _
  · refine SiftPreserves.bind (SiftPreserves.lift (hc o)) fun r => ?_
    split
    · exact SiftPreserves.throw _
    · exact SiftPreserves.bind (SiftPreserves.modify _) fun _ => SiftPreserves.pure _

theorem siftPass_preserves (current : List String) :
    SiftPreserves P (siftPass cost current) := by
  unfold siftPass
  refine foldlM_preserves (fun d i => ?_) _ _
  obtain ⟨cur, improved⟩ := d
  exact SiftPreserves.bind (evalOrder_preserves hc cur) fun _ =>
    SiftPreserves.bind (evalOrder_preserves hc _) fun _ => SiftPreserves.pure _

/-- The passes keep it, by induction on the passes allowed. -/
theorem siftLoop_preserves (maxPasses : Nat) :
    ∀ fuel cur passes, SiftPreserves P (siftLoop cost maxPasses fuel cur passes)
  | 0, _, _ => SiftPreserves.pure _
  | fuel + 1, cur, passes => by
    rw [siftLoop]
    split
    · exact SiftPreserves.pure _
    · refine SiftPreserves.bind (siftPass_preserves hc cur) fun r => ?_
      obtain ⟨next, improved⟩ := r
      dsimp only
      split
      · exact siftLoop_preserves maxPasses fuel next (passes + 1)
      · exact SiftPreserves.pure _

/-- Sifting keeps every property of the caller's state that each evaluation of the cost
keeps. -/
theorem sift_preserves (start : List String) (maxPasses : Nat) :
    Preserves P (sift start cost maxPasses) := by
  unfold sift
  extract_lets run
  -- the search proper, run from an empty memory
  have hrun : SiftPreserves P run := by
    refine SiftPreserves.bind (siftLoop_preserves hc maxPasses _ start 0) fun r => ?_
    obtain ⟨order, passes⟩ := r
    exact SiftPreserves.bind (evalOrder_preserves hc order) fun _ =>
      SiftPreserves.bind SiftPreserves.get fun _ => SiftPreserves.pure _
  exact Preserves.bind (hrun _) fun _ => Preserves.pure _

end Sift

end Order

end DecisionDiagrams

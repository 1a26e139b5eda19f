/-
Failures of the simplifier's calls.

Every call of the simplifier that runs operations of the table takes the faults they recorded as
its failure and clears them, so a failure does not reach a later call: substitution, rendering
and reading a formula leave a table without faults, and counting and printing a node of the
table leave the engine as it is. There is one exception. Reading a formula first declares its
new names, and when the table cannot hold their literals the call fails with the declaration's
faults, which stay in the table; the next call that takes faults reports them as its own.

A text that is not a formula changes nothing. Once a text parses, its new names are declared
whatever follows, and the number of variables is raised with them: a call that then fails to
compile the formula keeps them. A rendering that fails remembers no text.

* `Kernel.KeepsShape`, `Engine.Framed`, `Engine.Frames`, `Engine.Tidy`, `Engine.Clears` — what
  a part of a call keeps of an engine, and the parts that leave no fault.
* `Engine.session_wellFormed`, `Engine.calls_leave_no_fault` — the main statements.
-/
import DecisionDiagrams.Proofs.Identifiers
import DecisionDiagrams.Proofs.Sessions

namespace DecisionDiagrams

namespace Kernel

theorem fprint_faultsOnly (n : Int) : FaultsOnly (fprint n) := by
  unfold fprint
  refine .bind .get fun k => ?_
  split
  · exact .pure _
  split
  · exact .pure _
  refine .bind (allnodes_faultsOnly _ _ _) fun p => ?_
  split <;> exact .pure _

/-- A declaration that fails leaves the faults it answers, and there is one at least: a refused
number records its fault, and levels that cannot be declared record theirs. -/
theorem declareLevels_faults : ∀ (levels : List Nat) (k : Kernel),
    ((declareLevels levels).run k).1 = false → ((declareLevels levels).run k).2.faults ≠ []
  | [], _, h => by cases h
  | l :: rest, k, h => by
    rw [declareLevels_cons] at h ⊢
    dsimp only at h ⊢
    split
    · rename_i a b ha hb
      rw [ha, hb] at h
      exact declareLevels_faults rest _ h
    · exact List.cons_ne_nil _ _

theorem setVarnum_some {num : Int} {k : Kernel} {fs : List Fault}
    (h : ((setVarnum num).run k).1 = some fs) :
    ((setVarnum num).run k).2.faults = fs ∧ fs ≠ [] := by
  rw [setVarnum_run] at h ⊢
  split at h
  · cases h
    rename_i hbad
    rw [if_pos hbad]
    exact ⟨rfl, List.cons_ne_nil _ _⟩
  · rename_i hok
    rw [if_neg hok]
    dsimp only at h ⊢
    split at h
    · cases h
    · rename_i hr
      rw [if_neg hr]
      cases h
      exact ⟨rfl, declareLevels_faults _ _ (by simpa using hr)⟩

/-- An operation that keeps a table structured with sound caches, and grows it. -/
def KeepsShape {α : Type} (m : KernelM α) : Prop :=
  ∀ k, Structured k → CacheSound k →
    Structured (m.run k).2 ∧ CacheSound (m.run k).2 ∧ Grows k (m.run k).2

theorem KeepsShape.bind {α β : Type} {x : KernelM α} {f : α → KernelM β} (hx : KeepsShape x)
    (hf : ∀ a, KeepsShape (f a)) : KeepsShape (x >>= f) := fun k hs hc => by
  obtain ⟨hs₁, hc₁, hg₁⟩ := hx k hs hc
  obtain ⟨hs₂, hc₂, hg₂⟩ := hf (x.run k).1 (x.run k).2 hs₁ hc₁
  exact ⟨hs₂, hc₂, hg₁.trans hg₂⟩

theorem ithvar_keepsShape (i : Int) : KeepsShape (ithvar i) := fun k hs hc => by
  have h : Structured ((ithvar i).run k).2 ∧ CacheSound ((ithvar i).run k).2 :=
    perform_cacheSound (.ithvar i) hs hc
  exact ⟨h.1, h.2, ithvar_grows i k⟩

theorem nithvar_keepsShape (i : Int) : KeepsShape (nithvar i) := fun k hs hc => by
  have h : Structured ((nithvar i).run k).2 ∧ CacheSound ((nithvar i).run k).2 :=
    perform_cacheSound (.nithvar i) hs hc
  exact ⟨h.1, h.2, nithvar_grows i k⟩

theorem negate_keepsShape (n : Int) : KeepsShape (negate n) := fun k hs hc => by
  have h : Structured ((negate n).run k).2 ∧ CacheSound ((negate n).run k).2 :=
    perform_cacheSound (.negate n) hs hc
  exact ⟨h.1, h.2, negate_grows hs hc n⟩

theorem apply_keepsShape (l r op : Int) : KeepsShape (apply l r op) := fun k hs hc => by
  have h : Structured ((apply l r op).run k).2 ∧ CacheSound ((apply l r op).run k).2 :=
    perform_cacheSound (.apply l r op) hs hc
  exact ⟨h.1, h.2, apply_grows hs hc l r op⟩

theorem restrict_keepsShape (n level : Int) (val : Bool) : KeepsShape (restrict n level val) :=
  fun k hs hc => by
    have h : Structured ((restrict n level val).run k).2 ∧
        CacheSound ((restrict n level val).run k).2 :=
      perform_cacheSound (.restrict n level val) hs hc
    exact ⟨h.1, h.2, restrict_grows hs hc n level val⟩

end Kernel

namespace Engine

open Kernel

/-! ### What the parts of a call keep -/

/-- The table of an engine is structured and its caches are sound. -/
def WellFormed (e : Engine) : Prop :=
  Structured e.kernel ∧ CacheSound e.kernel

/-- The later engine has the names and the remembered texts of the earlier one and, if the
earlier table was well formed, a well formed table with the same number of variables. -/
structure Framed (e e' : Engine) : Prop where
  names : e'.names = e.names
  rendered : e'.rendered = e.rendered
  wellFormed : WellFormed e → WellFormed e' ∧ e'.kernel.varnum = e.kernel.varnum

theorem Framed.refl (e : Engine) : Framed e e :=
  ⟨rfl, rfl, fun h => ⟨h, rfl⟩⟩

theorem Framed.trans {e₁ e₂ e₃ : Engine} (h : Framed e₁ e₂) (h' : Framed e₂ e₃) :
    Framed e₁ e₃ where
  names := h'.names.trans h.names
  rendered := h'.rendered.trans h.rendered
  wellFormed hw :=
    have h₂ := h.wellFormed hw
    ⟨(h'.wellFormed h₂.1).1, (h'.wellFormed h₂.1).2.trans h₂.2⟩

/-- A computation that changes only the table, and keeps it well formed. -/
def Frames {α : Type} (m : EngineM α) : Prop :=
  ∀ e, Framed e (m.run e).2

/-- A computation that changes only the table, and leaves no fault in a table that had none. -/
def Tidy {α : Type} (m : EngineM α) : Prop :=
  ∀ e, Framed e (m.run e).2 ∧ (e.kernel.faults = [] → (m.run e).2.kernel.faults = [])

/-- A computation that changes only the table, and leaves no fault in it at all. -/
def Clears {α : Type} (m : EngineM α) : Prop :=
  ∀ e, Framed e (m.run e).2 ∧ (m.run e).2.kernel.faults = []

section Rules

variable {α β : Type}

theorem Frames.pure (a : α) : Frames (Pure.pure a : EngineM α) :=
  fun e => .refl e

theorem Frames.get : Frames (MonadState.get : EngineM Engine) :=
  fun e => .refl e

theorem Frames.bind {x : EngineM α} {f : α → EngineM β} (hx : Frames x) (hf : ∀ a, Frames (f a)) :
    Frames (x >>= f) :=
  fun e => (hx e).trans (hf (x.run e).1 (x.run e).2)

theorem Tidy.pure (a : α) : Tidy (Pure.pure a : EngineM α) :=
  fun e => ⟨.refl e, id⟩

theorem Tidy.get : Tidy (MonadState.get : EngineM Engine) :=
  fun e => ⟨.refl e, id⟩

theorem Tidy.bind {x : EngineM α} {f : α → EngineM β} (hx : Tidy x) (hf : ∀ a, Tidy (f a)) :
    Tidy (x >>= f) := fun e =>
  ⟨(hx e).1.trans (hf (x.run e).1 (x.run e).2).1,
    fun h => (hf (x.run e).1 (x.run e).2).2 ((hx e).2 h)⟩

theorem Clears.tidy {x : EngineM α} (h : Clears x) : Tidy x :=
  fun e => ⟨(h e).1, fun _ => (h e).2⟩

/-- What follows a computation that clears the faults keeps them cleared, if it is tidy. -/
theorem Clears.bind_left {x : EngineM α} {f : α → EngineM β} (hx : Clears x)
    (hf : ∀ a, Tidy (f a)) : Clears (x >>= f) := fun e =>
  ⟨(hx e).1.trans (hf (x.run e).1 (x.run e).2).1, (hf (x.run e).1 (x.run e).2).2 (hx e).2⟩

/-- What precedes a computation that clears the faults may record some, if it frames. -/
theorem Clears.bind_right {x : EngineM α} {f : α → EngineM β} (hx : Frames x)
    (hf : ∀ a, Clears (f a)) : Clears (x >>= f) := fun e =>
  ⟨(hx e).trans (hf (x.run e).1 (x.run e).2).1, (hf (x.run e).1 (x.run e).2).2⟩

end Rules

/-- Taking the faults clears them and changes nothing else. -/
theorem takeFaults_clears : Clears takeFaults := by
  intro e
  rw [takeFaults_run]
  split
  · rename_i h
    exact ⟨.refl e, List.isEmpty_iff.1 h⟩
  · refine ⟨⟨rfl, rfl, fun ⟨hs, hc⟩ => ?_⟩, rfl⟩
    exact ⟨⟨hs.of_eq _ rfl rfl rfl, hc.mono hs (.of_eq rfl rfl) rfl rfl⟩, rfl⟩

/-- An operation of the table that keeps its shape frames. -/
theorem frames_onKernel {α : Type} {m : KernelM α} (h : KeepsShape m) : Frames (onKernel m) :=
  fun e => ⟨rfl, rfl, fun ⟨hs, hc⟩ =>
    have h' := h e.kernel hs hc
    ⟨⟨h'.1, h'.2.1⟩, h'.2.2.varnum⟩⟩

/-- An operation of the table that records faults only frames. -/
theorem frames_of_faultsOnly {α : Type} {m : KernelM α} (h : FaultsOnly m) : Frames (onKernel m) :=
  fun e => by
    obtain ⟨fs, hk⟩ := h e.kernel
    refine ⟨rfl, rfl, fun ⟨hs, hc⟩ => ?_⟩
    show (Structured (m.run e.kernel).2 ∧ CacheSound (m.run e.kernel).2) ∧
      (m.run e.kernel).2.varnum = e.kernel.varnum
    rw [hk]
    exact ⟨⟨hs.of_eq _ rfl rfl rfl, hc.mono hs (.of_eq rfl rfl) rfl rfl⟩, rfl⟩

/-! ### Covers and substitutions -/

theorem supportNames_frames (n : Nat) : Frames (supportNames n) := by
  unfold supportNames
  exact .bind (frames_of_faultsOnly (support_faultsOnly n)) fun _ =>
    .bind .get fun _ => .pure _

theorem primeCover_tidy (n : Nat) (names : List String) (negate : Bool) :
    Tidy (primeCover n names negate) := by
  unfold primeCover
  exact .bind .get fun _ => .pure _

theorem pathCover_frames (n : Nat) (names : List String) (negate : Bool) :
    Frames (pathCover n names negate) := by
  unfold pathCover
  refine .bind .get fun _ => .bind (frames_of_faultsOnly (allsat_faultsOnly _ _ _)) fun p => ?_
  obtain ⟨cubes, _⟩ := p
  exact .pure _

/-- A cover ends by taking the faults, on every way through it. -/
theorem cover_clears (n : Nat) (negate : Bool) : Clears (cover n negate) := by
  unfold cover
  refine .bind_right (supportNames_frames n) fun names =>
    .bind_left takeFaults_clears fun r => ?_
  cases r with
  | some fs => exact .pure _
  | none =>
    dsimp only
    split
    -- each way answers the cover or the faults it takes after computing it
    · exact .bind (primeCover_tidy _ _ _) fun _ =>
        (Clears.bind_left takeFaults_clears fun r => by cases r <;> exact .pure _).tidy
    · exact (Clears.bind_right (pathCover_frames _ _ _) fun _ =>
        .bind_left takeFaults_clears fun r => by cases r <;> exact .pure _).tidy

/-- A substitution of an unknown name answers at once; one of a known name restricts and takes
the faults. -/
theorem substitute_tidy (x : Nat) (name : String) (val : Bool) : Tidy (substitute x name val) := by
  unfold substitute
  refine .bind .get fun e => ?_
  split
  · exact .pure _
  · refine (Clears.bind_right (frames_onKernel (restrict_keepsShape _ _ _)) fun _ =>
      .bind_left takeFaults_clears fun r => ?_).tidy
    cases r <;> exact .pure _

/-! ### Renderings -/

/-- A computation that changes only the table, leaves no fault in a table that had none, and may
remember a text for `x` as its last step, when it answers that text. -/
def Remembers (x : Nat) (m : EngineM (Except Failure String)) : Prop :=
  ∀ e, ∃ e', Framed e e' ∧ (e.kernel.faults = [] → e'.kernel.faults = []) ∧
    ((m.run e).2 = e' ∨ ∃ s, m.run e = (.ok s, { e' with rendered := e'.rendered.insert x s }))

theorem Tidy.remembers {x : Nat} {m : EngineM (Except Failure String)} (h : Tidy m) :
    Remembers x m :=
  fun e => ⟨_, (h e).1, (h e).2, .inl rfl⟩

theorem Remembers.bind {α : Type} {x : Nat} {m : EngineM α} {f : α → EngineM (Except Failure String)}
    (hm : Tidy m) (hf : ∀ a, Remembers x (f a)) : Remembers x (m >>= f) := fun e => by
  obtain ⟨e', hfr, hfa, hrun⟩ := hf (m.run e).1 (m.run e).2
  exact ⟨e', (hm e).1.trans hfr, fun h => hfa ((hm e).2 h), hrun⟩

/-- An operation of the table followed by taking its faults. -/
theorem Remembers.frames_clears {α : Type} {x : Nat} {m : EngineM α}
    {g : α → Option (List Fault) → EngineM (Except Failure String)} (hm : Frames m)
    (hg : ∀ a r, Remembers x (g a r)) : Remembers x (m >>= fun a => takeFaults >>= g a) := fun e => by
  obtain ⟨hf₁, hc₁⟩ := takeFaults_clears (m.run e).2
  obtain ⟨e', hfr, hfa, hrun⟩ := hg (m.run e).1 (takeFaults.run (m.run e).2).1
    (takeFaults.run (m.run e).2).2
  exact ⟨e', ((hm e).trans hf₁).trans hfr, fun _ => hfa hc₁, hrun⟩

/-- Remembering a text and answering it. -/
theorem remembers_store (x : Nat) (s : String) :
    Remembers x (modify (fun e : Engine => { e with rendered := e.rendered.insert x s }) >>=
      fun _ => Pure.pure (Except.ok s)) :=
  fun e => ⟨e, .refl e, id, .inr ⟨s, rfl⟩⟩

/-- A rendering takes the faults after each operation of the table, and remembers its text only
when it answers it. -/
theorem render_remembers (x : Nat) : Remembers x (render x) := by
  unfold render
  split
  · exact (Tidy.pure _).remembers
  split
  · exact (Tidy.pure _).remembers
  refine .bind .get fun e => ?_
  split
  · exact (Tidy.pure _).remembers
  refine .bind (cover_clears x false).tidy fun r => ?_
  rcases r with fs | dnf
  · exact (Tidy.pure _).remembers
  refine .frames_clears (frames_onKernel (negate_keepsShape x)) fun neg r => ?_
  rcases r with _ | fs
  · refine .bind (cover_clears _ true).tidy fun r => ?_
    rcases r with fs | cnf
    · exact (Tidy.pure _).remembers
    · exact remembers_store x _
  · exact (Tidy.pure _).remembers

/-- A rendering leaves no fault in a table that had none, and one that fails remembers no text. -/
theorem render_clean (x : Nat) {e : Engine} (he : e.kernel.faults = []) :
    ((render x).run e).2.kernel.faults = [] ∧
      ∀ f, ((render x).run e).1 = .error f → ((render x).run e).2.rendered = e.rendered := by
  obtain ⟨e', hfr, hfa, hrun⟩ := render_remembers x e
  rcases hrun with h | ⟨s, h⟩
  · rw [h]
    exact ⟨hfa he, fun _ _ => hfr.rendered⟩
  · rw [h]
    exact ⟨hfa he, fun _ hf => by cases hf⟩

/-! ### Reading formulas -/

/-- Compiling keeps the table structured with sound caches, and grows it. -/
theorem compile_keepsShape (levelOf : String → Nat) (f : Formula) :
    KeepsShape (compile levelOf f) := by
  induction f with
  | var x => exact ithvar_keepsShape _
  | not g ih =>
    cases g with
    | var x => exact nithvar_keepsShape _
    | not g' => exact .bind ih fun _ => negate_keepsShape _
    | bin op l r => exact .bind ih fun _ => negate_keepsShape _
  | bin op l r ihl ihr =>
    exact .bind ihl fun _ => .bind ihr fun _ => apply_keepsShape _ _ _

/-- A declaration extends the names; it declares them in the table only when their number
differs from the number of variables. -/
theorem declare_cases (xs : List String) (e : Engine) :
    ((declaredNames e.names xs).size = e.kernel.varnum ∧
      (declare xs).run e = (none, { e with names := declaredNames e.names xs })) ∨
    ∃ n : Int, n = (declaredNames e.names xs).size ∧
      (declare xs).run e = (((setVarnum n).run e.kernel).1,
        { e with names := declaredNames e.names xs, kernel := ((setVarnum n).run e.kernel).2 }) := by
  rw [declare_run]
  split
  · rename_i heq
    exact .inl ⟨heq, rfl⟩
  · exact .inr ⟨_, rfl, rfl⟩

theorem declare_wellFormed (xs : List String) {e : Engine} (h : WellFormed e) :
    WellFormed ((declare xs).run e).2 := by
  rcases declare_cases xs e with ⟨-, hd⟩ | ⟨n, -, hd⟩
  · rw [hd]
    exact h
  · rw [hd]
    exact setVarnum_cacheSound n h.1 h.2

/-- A declaration that answers no fault leaves one variable for each name, as long as there are
no more names than the largest number of variables. -/
theorem declare_varnum {xs : List String} {e : Engine} (h : ((declare xs).run e).1 = none)
    (hbound : (declaredNames e.names xs).size ≤ maxVariables) :
    ((declare xs).run e).2.kernel.varnum = (declaredNames e.names xs).size := by
  rcases declare_cases xs e with ⟨hsize, hd⟩ | ⟨n, hn, hd⟩
  · rw [hd]
    exact hsize.symm
  · rw [hd] at h ⊢
    dsimp only at h ⊢
    have hw : wrap32 n = n := wrap32_of_le (by omega) (by rw [hn]; exact_mod_cast hbound)
    rw [(setVarnum_none h).2, hw, hn, Int.toNat_natCast]

/-- A declaration that answers faults leaves them in the table, and there is one at least. -/
theorem declare_some {xs : List String} {e : Engine} {fs : List Fault}
    (h : ((declare xs).run e).1 = some fs) :
    ((declare xs).run e).2.kernel.faults = fs ∧ fs ≠ [] := by
  rcases declare_cases xs e with ⟨-, hd⟩ | ⟨n, -, hd⟩
  · rw [hd] at h
    cases h
  · rw [hd] at h ⊢
    dsimp only at h ⊢
    exact setVarnum_some h

/-- A formula whose declaration fails answers the declaration's faults, and the engine keeps the
declaration's table and names. -/
theorem parseAndSimplify_of_declare_fault {text : String} {g : Formula}
    (hp : Formula.parse text = .ok g) {e e₁ : Engine} {fs : List Fault}
    (hd : (declare (variablesOf text)).run e = (some fs, e₁)) :
    (parseAndSimplify text).run e = (.error (.of (.kernel fs)), e₁) := by
  unfold parseAndSimplify
  rw [hp]
  dsimp only
  rw [run_bind, hd]
  rfl

/-- After a declaration that answers no fault, reading a formula compiles it and takes the
faults. -/
theorem parseAndSimplify_of_declared {text : String} {g : Formula}
    (hp : Formula.parse text = .ok g) {e e₁ : Engine}
    (hd : (declare (variablesOf text)).run e = (none, e₁)) :
    Framed e₁ ((parseAndSimplify text).run e).2 ∧
      ((parseAndSimplify text).run e).2.kernel.faults = [] := by
  unfold parseAndSimplify
  rw [hp]
  dsimp only
  rw [run_bind, hd]
  dsimp only
  refine (?_ : Clears _) e₁
  refine .bind_right .get fun e' => .bind_right (frames_onKernel (compile_keepsShape e'.levelOf g))
    fun n => .bind_left takeFaults_clears fun r => ?_
  cases r <;> exact .pure _

theorem parseAndSimplify_wellFormed (text : String) {e : Engine} (h : WellFormed e) :
    WellFormed ((parseAndSimplify text).run e).2 := by
  rcases hp : Formula.parse text with err | g
  · rw [parseAndSimplify_run_of_error hp]
    exact h
  · have hw := declare_wellFormed (variablesOf text) h
    rcases hd : (declare (variablesOf text)).run e with ⟨_ | fs, e₁⟩
    · rw [hd] at hw
      exact ((parseAndSimplify_of_declared hp hd).1.wellFormed hw).1
    · rw [hd] at hw
      rw [parseAndSimplify_of_declare_fault hp hd]
      exact hw

/-- Every engine of a session has a structured table with sound caches. -/
theorem session_wellFormed {limits : Limits} {e : Engine} (h : Session limits e) : WellFormed e := by
  induction h with
  | create h =>
    obtain ⟨k, hk, rfl⟩ := Engine.create_ok_iff.1 h
    exact create_cacheSound hk
  | call c _ _ ih =>
    cases c with
    | parse text => exact parseAndSimplify_wellFormed text ih
    | substitute x name val => exact ((substitute_tidy x name val _).1.wellFormed ih).1
    | render x =>
      obtain ⟨e', hfr, -, hrun⟩ := render_remembers x _
      show WellFormed ((render x).run _).2
      rcases hrun with h | ⟨s, h⟩
      · rw [h]
        exact (hfr.wellFormed ih).1
      · rw [h]
        exact (hfr.wellFormed ih).1
    | count x => exact ((frames_of_faultsOnly (satcount_faultsOnly x) _).wellFormed ih).1
    | dump x => exact ((frames_of_faultsOnly (fprint_faultsOnly x) _).wellFormed ih).1

/-! ### Calls after a failure -/

/-- The calls of the simplifier on an engine of a session with no fault in its table. A
substitution and a rendering leave no fault, and a rendering that fails remembers no text;
counting and printing a node of the table change nothing. A text that is not a formula changes
nothing. Reading a formula declares its names, whatever follows. When the declaration answers
no fault, the call leaves no fault, and one variable for each name: a call that fails to compile
the formula keeps the names and the number of variables it raised. When the declaration answers
faults, the call fails with them and they stay in the table. -/
theorem calls_leave_no_fault {limits : Limits} {e : Engine} (hse : Session limits e)
    (he : e.kernel.faults = []) :
    (∀ x name val, ((substitute x name val).run e).2.kernel.faults = []) ∧
    (∀ x, ((render x).run e).2.kernel.faults = [] ∧
      ∀ f, ((render x).run e).1 = .error f → ((render x).run e).2.rendered = e.rendered) ∧
    (∀ x, x < e.kernel.nodes.size → ((count x).run e).2 = e ∧ ((dump x).run e).2 = e) ∧
    ∀ text, (∀ err, Formula.parse text = .error err → ((parseAndSimplify text).run e).2 = e) ∧
      ∀ g, Formula.parse text = .ok g →
        ((parseAndSimplify text).run e).2.names = declaredNames e.names (variablesOf text) ∧
        (((declare (variablesOf text)).run e).1 = none →
          ((parseAndSimplify text).run e).2.kernel.faults = [] ∧
          ((declaredNames e.names (variablesOf text)).size ≤ maxVariables →
            ((parseAndSimplify text).run e).2.kernel.varnum =
              (declaredNames e.names (variablesOf text)).size)) ∧
        ∀ fs, ((declare (variablesOf text)).run e).1 = some fs →
          (parseAndSimplify text).run e =
              (.error (.of (.kernel fs)), ((declare (variablesOf text)).run e).2) ∧
            ((declare (variablesOf text)).run e).2.kernel.faults = fs ∧ fs ≠ [] := by
  have hw := session_wellFormed hse
  refine ⟨fun x name val => (substitute_tidy x name val e).2 he, fun x => render_clean x he,
    fun x hx => ⟨count_run_of_lt hx, dump_run_of_lt he hx⟩,
    fun text => ⟨fun _ hp => parseAndSimplify_run_of_error hp, fun g hp => ⟨?_, ?_, ?_⟩⟩⟩
  · -- the names are those of the declaration, which the rest of the call keeps
    have hdn := declare_names (variablesOf text) e
    rcases hd : (declare (variablesOf text)).run e with ⟨_ | fs, e₁⟩
    · rw [hd] at hdn
      exact (parseAndSimplify_of_declared hp hd).1.names.trans hdn
    · rw [hd] at hdn
      rw [parseAndSimplify_of_declare_fault hp hd]
      exact hdn
  · intro hnone
    have hd : (declare (variablesOf text)).run e = (none, ((declare (variablesOf text)).run e).2) :=
      Prod.ext hnone rfl
    obtain ⟨hfr, hclean⟩ := parseAndSimplify_of_declared hp hd
    refine ⟨hclean, fun hbound => ?_⟩
    -- compiling keeps the number of variables of the well formed table the declaration left
    exact (hfr.wellFormed (declare_wellFormed _ hw)).2.trans (declare_varnum hnone hbound)
  · intro fs hfs
    exact ⟨parseAndSimplify_of_declare_fault hp (Prod.ext hfs rfl), declare_some hfs⟩

/-- A new engine with room for four nodes leaves no fault after rendering `0`. -/
theorem render_leaves_no_fault_on_created :
    Session ⟨4, 10000, 0⟩ (created ⟨4, 10000, 0⟩) ∧ (created ⟨4, 10000, 0⟩).kernel.faults = [] ∧
      ((render 0).run (created ⟨4, 10000, 0⟩)).2.kernel.faults = [] :=
  ⟨.create rfl, rfl, ((calls_leave_no_fault (.create rfl) rfl).2.1 0).1⟩

set_option maxRecDepth 100000 in
/-- With room for four nodes, reading "a" fills the table with the literals of `a`. Reading "b"
then cannot declare `b` and fails; its faults stay in the table, so substituting true for `a` in
the node of "a" fails as well. -/
theorem declaration_fault_fails_next_substitution :
    let e₁ := ((parseAndSimplify "a").run (created ⟨4, 10000, 0⟩)).2
    let e₂ := ((parseAndSimplify "b").run e₁).2
    ((parseAndSimplify "a").run (created ⟨4, 10000, 0⟩)).1.toOption = some 2 ∧
      ((parseAndSimplify "b").run e₁).1.toOption = none ∧ e₂.kernel.faults.isEmpty = false ∧
      ((substitute 2 "a" true).run e₂).1.toOption = none := by
  intro e₁ e₂
  simp only [e₁, e₂]
  cbv

end Engine

end DecisionDiagrams

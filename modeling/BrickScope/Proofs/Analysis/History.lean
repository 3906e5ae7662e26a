import BrickScope.Proofs.Analysis.Memory
import BrickScope.Proofs.Analysis.Run
import BrickScope.Proofs.Sources

/-!
# Runs do not see each other

What an analyzer with a memory does is what the steps of the analysis say: each piece of work leaves in the memory just
what its steps leave, and it ends as they end.  So a run gives the same report, or the same violation, whatever runs
were made before with the same memory.

* `Memory.absorb`: what steps leave in a memory;
* `Does`: a piece of work does what some steps say;
* `Analyzer.perform_eq`: one run;
* `Analyzer.history_independent`: the stacks, and any sequence of runs.
-/

namespace BrickScope

open Work (act)

namespace Memory

/-- What steps leave in a memory, the stacks apart. -/
def absorb (a : Analyzer) (steps : List Step) (m : Memory) : Memory :=
  { m with
    knownVars := Table.insertAll m.knownVars (steps.filterMap Step.record?)
    annotations := (steps.flatMap (Step.annotations a.settings)).foldl Annotation.push m.annotations
    log := m.log ++ steps.flatMap (Step.log a.settings) }

variable {a : Analyzer}

theorem absorb_nil (m : Memory) : m.absorb a [] = m := by
  simp [absorb, Table.insertAll]

theorem absorb_append (xs ys : List Step) (m : Memory) : m.absorb a (xs ++ ys) = (m.absorb a xs).absorb a ys := by
  simp [absorb, Table.insertAll, List.filterMap_append, List.foldl_append]

theorem record_eq_absorb {x : Step} {words : String} {p : Position} {scope : Scope}
    (hrecord : x.record? = some (p.path, scope)) (hnotes : x.annotations a.settings = [])
    (hlog : x.log a.settings = [Log.debug (words ++ p.path)]) (m : Memory) :
    m.record words p scope = m.absorb a [x] := by
  simp [record, say, absorb, Table.insertAll, hrecord, hnotes, hlog]

theorem absorb_bracket (first last : Step) (w : Walk Step) (m : Memory) :
    m.absorb a (Walk.bracket first w last).events =
      ((m.absorb a [first]).absorb a w.events).absorb a [last] := by
  rw [← absorb_append, ← absorb_append]
  rfl

/-- Other outputs in the innermost frame. -/
def withOutputs (outputs : Scope) (m : Memory) : Memory :=
  { m with frames := m.frames.modifyHead fun f => { f with outputs := outputs } }

theorem withOutputs_withOutputs (outputs outputs' : Scope) (m : Memory) :
    (m.withOutputs outputs).withOutputs outputs' = m.withOutputs outputs' := by
  unfold withOutputs
  cases m.frames <;> rfl

/-- A step that leaves nothing. -/
theorem absorb_silent {x : Step} (hrecord : x.record? = none) (hnotes : x.annotations a.settings = [])
    (hlog : x.log a.settings = []) (m : Memory) : m.absorb a [x] = m := by
  simp [absorb, Table.insertAll, hrecord, hnotes, hlog]

theorem say_eq_absorb {x : Step} {entries : List Log.Entry} (hrecord : x.record? = none)
    (hnotes : x.annotations a.settings = []) (hlog : x.log a.settings = entries) (m : Memory) :
    m.say entries = m.absorb a [x] := by
  simp [say, absorb, Table.insertAll, hrecord, hnotes, hlog]

/-- Below the root, entering and leaving a level is logged. -/
theorem pushFrame_eq {m : Memory} (h : 1 ≤ m.frames.length) (p : Position) (vars : Scope) :
    m.pushFrame p vars =
      { m with frames := { vars := vars } :: m.frames }.absorb a [.openLevel p (m.frames.length + 1) vars] := by
  refine say_eq_absorb rfl rfl ?_ _
  rw [Step.log, if_neg (by omega)]

theorem popFrame_eq {n : Nat} (h : 1 ≤ n) (p : Position) (m : Memory) :
    m.popFrame p = { m with frames := m.frames.tail }.absorb a [.closeLevel p (n + 1)] := by
  refine say_eq_absorb rfl rfl ?_ _
  rw [Step.log, if_neg (by omega)]

/-! ## expressions -/

/-- Without a scope nothing is defined, as in the empty one. -/
theorem defines_scope (m : Memory) (reference : String) :
    (m.scope?.map fun scope => scope.defines reference).getD false = m.scope.defines reference := by
  unfold scope
  cases m.scope? with
  | none => simp [Scope.defines, Scope.existence?, Scope.lookup, Scope.empty]
  | some scope => rfl

theorem foldl_checkReference (p : Position) (e : Expression) (references : List String) (m : Memory) :
    references.foldl (checkReference p e) m = { m with
      annotations := List.foldl Annotation.push m.annotations
        ((references.filter fun r => !m.scope.defines (Text.trim r)).map fun r => .undefined p r e.quote) } := by
  induction references generalizing m with
  | nil => rfl
  | cons r references ih =>
    rw [List.foldl_cons, ih, List.filter_cons]
    unfold checkReference
    rw [m.defines_scope]
    by_cases h : m.scope.defines (Text.trim r) = true
    · rw [if_pos h, if_neg (by simp [h])]
    · rw [if_neg h, if_pos (by simp [h])]
      rfl

theorem check_eq_absorb (p : Position) (e : Expression) (m : Memory) :
    m.check a p e = m.absorb a [.check p e m.scope] := by
  have hrecord : (Step.check p e m.scope).record? = none := rfl
  unfold check absorb
  cases h : e.references a.settings.checkTemplates with
  | ok references =>
    dsimp only
    rw [foldl_checkReference]
    simp [hrecord, Step.annotations, Step.log, Expression.annotations, h, Table.insertAll]
  | error stop => simp [hrecord, Step.annotations, Step.log, Expression.annotations, h, Table.insertAll, say]

end Memory

/-! ## work that does what steps say -/

/-- The work leaves what the steps leave, and ends as they end. -/
def Does (a : Analyzer) (w : Work) (m : Memory) (steps : Walk Step) : Prop :=
  w m = (m.absorb a steps.events, steps.failure)

section

variable {a : Analyzer} {w rest : Work} {m : Memory} {steps steps' : Walk Step}

/-- The same for work that also puts outputs into the innermost frame. -/
def Yields (a : Analyzer) (w : Work) (m : Memory) (steps : Walk Step) : Prop :=
  ∃ outputs, w m = ((m.withOutputs outputs).absorb a steps.events, steps.failure)

theorem does_nothing : Does a (act id) m {} := by
  unfold Does
  rw [Memory.absorb_nil]
  rfl

theorem Does.andThen (h : Does a w m steps) (h' : steps.Complete → Does a rest (m.absorb a steps.events) steps') :
    Does a (w.andThen rest) m (steps ++ steps') := by
  unfold Does Work.andThen
  rw [h]
  cases hf : steps.failure with
  | some v =>
    rw [Walk.append_of_failure hf, hf]
  | none =>
    dsimp only
    rw [h' hf, Walk.append_of_complete hf, Memory.absorb_append]

/-- Work between two actions, if it does what the steps say on the memory that the first one makes. -/
theorem Does.between (enter leave : Memory → Memory) {first last : Step} (h : Does a w (enter m) steps)
    (hleave : leave ((enter m).absorb a steps.events) =
      ((m.absorb a [first]).absorb a steps.events).absorb a [last]) :
    Does a (.between enter leave w) m (.bracket first steps last) := by
  unfold Does Work.between
  rw [h, hleave, Memory.absorb_bracket]
  rfl

end

namespace Session

variable {s : Session} {n : Nat} {inherited outputs : Scope} {b : BrickSite}

theorem brickSteps_stopped {v : Violation} (h : s.violation? b.position b.brick = some v) :
    s.brickSteps n inherited outputs b = .bracket
      (.enterBrick b.position b.brick (s.brickScope inherited outputs b.brick)) ⟨[], some v⟩
      (.leaveBrick b.position none) := by
  obtain ⟨p, b, isDocument, inside⟩ := b
  rw [brickSteps]
  dsimp only at h ⊢
  rw [h]
  rfl

theorem brickSteps_entered (h : s.violation? b.position b.brick = none) :
    s.brickSteps n inherited outputs b = .bracket
      (.enterBrick b.position b.brick (s.brickScope inherited outputs b.brick))
      (s.sitesSteps n (s.brickScope inherited outputs b.brick) b.inside)
      (.leaveBrick b.position (if (s.sitesSteps n (s.brickScope inherited outputs b.brick) b.inside).failure.isNone
        then s.product? b.brick else none)) := by
  obtain ⟨p, b, isDocument, inside⟩ := b
  rw [brickSteps]
  dsimp only at h ⊢
  rw [h]

end Session

namespace Analyzer

variable (a : Analyzer)

/-! ## the work at each node -/

theorem does_deferred {p : Position} {b : Brick} {row : Option Element} {inside : List Site} {m : Memory}
    (h : ∀ m', m'.session a = m.session a → m'.frames = m.frames →
      Does a (a.visitSites inside) m' ((m.session a).sitesSteps m.frames.length m'.scope inside)) :
    Does a (a.visitSite (.deferred p b row inside)) m
      ((m.session a).siteSteps m.frames.length m.scope (.deferred p b row inside)) := by
  rw [Session.siteSteps]
  have hlast : ∀ m' : Memory, m'.absorb a [.leaveBody p] = m' := Memory.absorb_silent rfl rfl rfl
  cases row with
  | none =>
    have hfirst : m.record "recorded deferred scope " p m.scope = m.absorb a [.enterBody p false m.scope] :=
      Memory.record_eq_absorb rfl rfl rfl m
    refine Does.between (Memory.record "recorded deferred scope " p m.scope) id (h _ rfl rfl) ?_
    rw [hfirst, hlast]
    rfl
  | some e =>
    set scope := Session.bodyScope p (some e) m.scope
    have hfirst : m.record "recorded element scope " p scope = m.absorb a [.enterBody p true scope] :=
      Memory.record_eq_absorb rfl rfl rfl m
    refine Does.between (fun m => (m.record "recorded element scope " p scope).pushScope scope)
      Memory.popScope (h _ rfl rfl) ?_
    rw [hfirst, hlast]
    rfl

theorem does_level {p : Position} {owner : Option Owner} {bricks : List BrickSite} {m : Memory} (hm : m.frames ≠ [])
    (h : ∀ (m' : Memory) (f : Frame), m'.session a = m.session a → m'.frames = f :: m.frames →
      Yields a (a.visitBricks bricks) m'
        ((m.session a).bricksSteps (m.frames.length + 1) f.vars f.outputs bricks)) :
    Does a (a.visitLevel ⟨p, owner, bricks⟩) m
      ((m.session a).levelSteps m.frames.length m.scope ⟨p, owner, bricks⟩) := by
  rw [Session.levelSteps]
  set vars := (m.session a).levelScope p owner m.scope
  obtain ⟨outputs, hin⟩ := h (m.pushFrame p vars) { vars := vars } rfl rfl
  have hdepth : 1 ≤ m.frames.length := List.length_pos_of_ne_nil hm
  have hwork : a.visitLevel ⟨p, owner, bricks⟩ m =
      (Memory.popFrame p (a.visitBricks bricks (m.pushFrame p vars)).1,
        (a.visitBricks bricks (m.pushFrame p vars)).2) := rfl
  set steps := (m.session a).bricksSteps (m.frames.length + 1) vars .empty bricks
  have hleave : Memory.popFrame p (((m.pushFrame p vars).withOutputs outputs).absorb a steps.events) =
      ((m.absorb a [.openLevel p (m.frames.length + 1) vars]).absorb a steps.events).absorb a
        [.closeLevel p (m.frames.length + 1)] := by
    rw [Memory.popFrame_eq (a := a) hdepth, Memory.pushFrame_eq (a := a) hdepth]
    rfl
  unfold Does
  rw [hwork, hin, hleave, Memory.absorb_bracket]
  rfl

theorem withOutputs_self {m : Memory} {f : Frame} {lower : List Frame} (hm : m.frames = f :: lower) :
    m.withOutputs f.outputs = m := by
  unfold Memory.withOutputs
  rw [hm]
  exact congrArg (fun frames => { m with frames := frames }) hm.symm

/-- The output of a brick, and what is said about it, if nothing was wrong inside. -/
theorem addOutput_eq {p : Position} {b : Brick} {m : Memory} {f : Frame} {lower : List Frame}
    (hm : m.frames = f :: lower) :
    m.addOutput a p b = (m.withOutputs ((m.session a).addProduct p b f.outputs)).absorb a
      [.leaveBrick p ((m.session a).product? b)] := by
  unfold Memory.addOutput Session.addProduct
  cases (m.session a).product? b with
  | none =>
    have hsilent : m.absorb a [.leaveBrick p none] = m := Memory.absorb_silent rfl rfl rfl m
    rw [withOutputs_self hm, hsilent]
  | some o =>
    have hsay : ∀ m' : Memory, m'.say (o.log p) = m'.absorb a [.leaveBrick p (some o)] :=
      Memory.say_eq_absorb rfl rfl rfl
    dsimp only
    rw [hsay]
    unfold Memory.withOutputs
    rw [hm]
    rfl

/-- The work at a brick does what its steps say, and its output is in the innermost frame unless something was wrong. -/
def Brings (b : BrickSite) (m : Memory) (f : Frame) : Prop :=
  ∃ outputs, ∃ steps : Walk Step, steps = (m.session a).brickSteps m.frames.length f.vars f.outputs b ∧
    (steps.Complete → outputs = (m.session a).addProduct b.position b.brick f.outputs) ∧
    a.visitBrick b m = ((m.withOutputs outputs).absorb a steps.events, steps.failure)

section

variable {b : BrickSite} {m : Memory} {f : Frame} {lower : List Frame}

theorem brings_of_violation (hm : m.frames = f :: lower) {v : Violation}
    (hv : (m.session a).violation? b.position b.brick = some v) : a.Brings b m f := by
  have htop : m.top = f := by rw [Memory.top, hm]; rfl
  set scope := (m.session a).brickScope f.vars f.outputs b.brick
  have hfirst : m.record "recorded scope " b.position scope = m.absorb a [.enterBrick b.position b.brick scope] :=
    Memory.record_eq_absorb rfl rfl rfl m
  have hlast : ∀ m' : Memory, m'.absorb a [.leaveBrick b.position none] = m' := Memory.absorb_silent rfl rfl rfl
  refine ⟨f.outputs, _, (Session.brickSteps_stopped hv).symm, fun hc => ?_, ?_⟩
  · cases hc
  rw [a.visitBrick_of_violation hv, htop, hfirst, Memory.absorb_bracket, withOutputs_self hm, hlast, Memory.absorb_nil]
  rfl

theorem brings_of_noViolation (hm : m.frames = f :: lower)
    (hv : (m.session a).violation? b.position b.brick = none)
    (h : ∀ m' : Memory, m'.session a = m.session a → m'.frames = m.frames →
      Does a (a.visitSites b.inside) m' ((m.session a).sitesSteps m.frames.length m'.scope b.inside)) :
    a.Brings b m f := by
  have htop : m.top = f := by rw [Memory.top, hm]; rfl
  set scope := (m.session a).brickScope f.vars f.outputs b.brick with hscope
  set inner := (m.session a).sitesSteps m.frames.length scope b.inside
  set m₁ := (m.absorb a [.enterBrick b.position b.brick scope]).absorb a inner.events
  have hfirst : m.record "recorded scope " b.position scope = m.absorb a [.enterBrick b.position b.brick scope] :=
    Memory.record_eq_absorb rfl rfl rfl m
  have hin : Does a (a.visitSites b.inside) ((m.record "recorded scope " b.position scope).pushScope scope) inner :=
    h _ rfl rfl
  -- the scope is off the stack again when the output is added
  have hbetween : Work.between (Memory.pushScope scope) Memory.popScope (a.visitSites b.inside)
      (m.record "recorded scope " b.position scope) = (m₁, inner.failure) := by
    unfold Work.between
    rw [hin, hfirst]
    rfl
  have hwork := a.visitBrick_of_noViolation hv (htop ▸ hscope)
  unfold Work.andThen at hwork
  rw [hbetween] at hwork
  cases hf : inner.failure with
  | some v =>
    rw [hf] at hwork
    have hlast : ∀ m' : Memory, m'.absorb a [.leaveBrick b.position none] = m' := Memory.absorb_silent rfl rfl rfl
    refine ⟨f.outputs, _, (Session.brickSteps_entered hv).symm, fun hc => ?_, ?_⟩
    · cases hc.symm.trans hf
    · rw [hwork, Memory.absorb_bracket, withOutputs_self hm]
      have hproduct : (if inner.failure.isNone then (m.session a).product? b.brick else none) = none := by
        rw [hf]
        rfl
      rw [hproduct, hlast]
      exact Prod.ext rfl hf.symm
  | none =>
    rw [hf] at hwork
    refine ⟨_, _, (Session.brickSteps_entered hv).symm, fun _ => rfl, ?_⟩
    have hadd := a.addOutput_eq (p := b.position) (b := b.brick) (m := m₁) hm
    have hproduct : (if inner.failure.isNone then (m.session a).product? b.brick else none) =
        (m.session a).product? b.brick := by
      rw [hf]
      rfl
    rw [hwork, Memory.absorb_bracket, hproduct]
    exact Prod.ext hadd hf.symm

/-- The bricks behind a brick work on the frame with its output. -/
theorem yields_cons {bricks : List BrickSite} (hm : m.frames = f :: lower) (hb : a.Brings b m f)
    (hrest : ∀ (m' : Memory) (f' : Frame), m'.session a = m.session a → m'.frames = f' :: lower →
      Yields a (a.visitBricks bricks) m'
        ((m.session a).bricksSteps m.frames.length f'.vars f'.outputs bricks)) :
    Yields a (a.visitBricks (b :: bricks)) m
      ((m.session a).bricksSteps m.frames.length f.vars f.outputs (b :: bricks)) := by
  obtain ⟨outputs, steps, hsteps, hcomplete, hwork⟩ := hb
  rw [visitBricks, Session.bricksSteps, ← hsteps]
  unfold Yields Work.andThen
  rw [hwork]
  cases hf : steps.failure with
  | some v =>
    refine ⟨outputs, ?_⟩
    rw [Walk.append_of_failure hf, hf]
  | none =>
    obtain rfl := hcomplete hf
    set outputs := (m.session a).addProduct b.position b.brick f.outputs
    set m₁ := (m.withOutputs outputs).absorb a steps.events with hm₁
    have hframes : m₁.frames = ⟨f.vars, outputs⟩ :: lower := by
      have hlist : m₁.frames = m.frames.modifyHead fun f => { f with outputs := outputs } := rfl
      rw [hlist, hm]
      rfl
    obtain ⟨outputs', hrest'⟩ := hrest m₁ ⟨f.vars, outputs⟩ rfl hframes
    refine ⟨outputs', ?_⟩
    have hout : m₁.withOutputs outputs' = (m.withOutputs outputs').absorb a steps.events := by
      rw [← m.withOutputs_withOutputs outputs outputs']
      rfl
    dsimp only
    rw [hrest', hout, Walk.append_of_complete hf, Memory.absorb_append]

end

mutual

theorem does_visitSite : ∀ (site : Site) (m : Memory), m.frames ≠ [] →
    Does a (a.visitSite site) m ((m.session a).siteSteps m.frames.length m.scope site)
  | .literal _ _, _, _ => does_nothing
  | .expression p e, m, _ => by
    rw [visitSite, Session.siteSteps]
    exact Prod.ext (Memory.check_eq_absorb p e m) rfl
  | .level level, m, hm => does_visitLevel level m hm
  | .document _ _ inside, m, hm => does_visitSites inside m hm
  | .element _ _ _ inside, m, hm => does_visitSites inside m hm
  | .deferred p b row inside, m, hm => a.does_deferred fun m' hs hf => by
    have hin := does_visitSites inside m' (hf ▸ hm)
    rwa [hs, hf] at hin
  | .violation v, m, _ => by
    rw [visitSite, Session.siteSteps]
    exact Prod.ext (m.absorb_nil (a := a)).symm rfl

theorem does_visitSites : ∀ (sites : List Site) (m : Memory), m.frames ≠ [] →
    Does a (a.visitSites sites) m ((m.session a).sitesSteps m.frames.length m.scope sites)
  | [], _, _ => does_nothing
  | site :: sites, m, hm => by
    rw [visitSites, Session.sitesSteps]
    -- the stacks after the first site are those before it
    exact (does_visitSite site m hm).andThen fun _ => does_visitSites sites (m.absorb a _) hm

theorem does_visitLevel : ∀ (level : Level) (m : Memory), m.frames ≠ [] →
    Does a (a.visitLevel level) m ((m.session a).levelSteps m.frames.length m.scope level)
  | ⟨p, owner, bricks⟩, m, hm => a.does_level hm fun m' f hs hf => by
    have hin := yields_visitBricks bricks m' f m.frames hf
    rwa [hs, hf, List.length_cons] at hin

theorem yields_visitBricks : ∀ (bricks : List BrickSite) (m : Memory) (f : Frame) (lower : List Frame),
    m.frames = f :: lower →
    Yields a (a.visitBricks bricks) m ((m.session a).bricksSteps m.frames.length f.vars f.outputs bricks)
  | [], m, f, _, hm => by
    refine ⟨f.outputs, ?_⟩
    rw [withOutputs_self hm]
    exact Prod.ext (m.absorb_nil (a := a)).symm rfl
  | b :: bricks, m, f, lower, hm => a.yields_cons hm (brings_visitBrick b m f lower hm) fun m' f' hs hf => by
    have hin := yields_visitBricks bricks m' f' lower hf
    have hlength : m'.frames.length = m.frames.length := by rw [hf, hm, List.length_cons, List.length_cons]
    rwa [hs, hlength] at hin

theorem brings_visitBrick : ∀ (b : BrickSite) (m : Memory) (f : Frame) (lower : List Frame),
    m.frames = f :: lower → a.Brings b m f
  | ⟨p, b, isDocument, inside⟩, m, f, lower, hm => by
    cases hv : (m.session a).violation? p b with
    | some v => exact a.brings_of_violation hm hv
    | none =>
      refine a.brings_of_noViolation hm hv fun m' hs hf => ?_
      have hin := does_visitSites inside m' (by rw [hf, hm]; exact List.cons_ne_nil f lower)
      rwa [hs, hf] at hin

end

/-! ## runs -/

/-- Nothing is said of the root level itself. -/
theorem absorb_rootLevel (p : Position) (vars : Scope) (w : Walk Step) (m : Memory) :
    m.absorb a (Walk.bracket (.openLevel p 1 vars) w (.closeLevel p 1)).events = m.absorb a w.events := by
  have hfirst : m.absorb a [.openLevel p 1 vars] = m := Memory.absorb_silent rfl rfl rfl m
  have hlast : ∀ m' : Memory, m'.absorb a [.closeLevel p 1] = m' := Memory.absorb_silent rfl rfl rfl
  rw [Memory.absorb_bracket, hfirst, hlast]

/-- A run gives what the analysis gives, and adds its entries to the log, whatever the memory holds. -/
theorem perform_eq (pipeline : Pipeline) (m : Memory) :
    (a.perform pipeline m).2 = (a.run pipeline).outcome ∧
      (a.perform pipeline m).1.log = m.log ++ (a.run pipeline).log := by
  unfold perform run
  cases hids : pipeline.brickIds with
  | error v => exact ⟨rfl, (List.append_nil m.log).symm⟩
  | ok ids =>
    dsimp only
    set s := a.session ids
    set m₁ : Memory := Memory.say (a.preamble s)
      { log := m.log, bricks := s.bricks, frames := [{ vars := a.rootScope s }] }
    set steps := s.steps (a.rootScope s) pipeline
    have hwork : Yields a (a.visitRoot pipeline) m₁ steps := by
      obtain ⟨outputs, h⟩ := a.yields_visitBricks
        (pipeline.outline a.settings.isDocument ⟨a.settings.rootPath⟩).bricks m₁ { vars := a.rootScope s } [] rfl
      exact ⟨outputs, h.trans (Prod.ext (a.absorb_rootLevel _ _ _ _).symm rfl)⟩
    obtain ⟨outputs, hwork⟩ := hwork
    rw [hwork]
    have hlog : ((m₁.withOutputs outputs).absorb a steps.events).log =
        m.log ++ (a.preamble s ++ steps.events.flatMap (Step.log a.settings)) := List.append_assoc _ _ _
    cases hf : steps.failure with
    | some v => exact ⟨rfl, hlog⟩
    | none =>
      refine ⟨rfl, ?_⟩
      have hsay : ∀ (m' : Memory) (entries : List Log.Entry), (m'.say entries).log = m'.log ++ entries :=
        fun _ _ => rfl
      rw [hsay, ← List.append_assoc, ← hlog]
      rfl

theorem performAll_eq (pipelines : List Pipeline) (m : Memory) :
    a.performAll pipelines m = pipelines.map fun pipeline => (a.run pipeline).outcome := by
  induction pipelines generalizing m with
  | nil => rfl
  | cons pipeline pipelines ih => rw [performAll, List.map_cons, ih, (a.perform_eq pipeline m).1]

/-- **Stack discipline and history independence.**  Whatever the memory holds, and whether it ends well or not, the work
at a node of an outline leaves both stacks as they were; that at a brick leaves them so but for the outputs in the
innermost frame, to which the output of the brick is added under its position if nothing was wrong.  So any sequence of
runs with one memory, whatever it held at first, gives what each run gives with a fresh one, and that is the outcome of
the analysis; the entries in the log are the same, too. -/
theorem history_independent :
    (∀ (site : Site) (m : Memory), (a.visitSite site m).1.frames = m.frames ∧
      (a.visitSite site m).1.active = m.active) ∧
    (∀ (b : BrickSite) (m : Memory), (a.visitBrick b m).1.active = m.active ∧
      ((∃ v, (a.visitBrick b m).2 = some v) → (a.visitBrick b m).1.frames = m.frames) ∧
      ((a.visitBrick b m).2 = none → (a.visitBrick b m).1.frames = m.frames.modifyHead fun f =>
        { f with outputs := (m.session a).addProduct b.position b.brick f.outputs })) ∧
    (∀ (m : Memory) (p : Position) (b : Brick) (outputs : Scope) (source : String), source ≠ p.path →
      ((m.session a).addProduct p b outputs).source? source = outputs.source? source) ∧
    (∀ (pipelines : List Pipeline) (m : Memory),
      a.performAll pipelines m = pipelines.map fun pipeline => (a.perform pipeline {}).2) ∧
    ∀ (pipeline : Pipeline) (m : Memory), (a.perform pipeline m).2 = (a.run pipeline).outcome ∧
      (a.perform pipeline m).1.log = m.log ++ (a.run pipeline).log := by
  refine ⟨fun site m => ?_, fun b m => ?_, fun m p b outputs source hne => ?_, fun pipelines m => ?_, a.perform_eq⟩
  · have hsame := a.steady_visitSite site m
    exact ⟨hsame.frames, hsame.active⟩
  · rcases a.visitBrick_stacks (a.steady_visitSites b.inside) m with ⟨hend, -, hactive, hframes⟩ | ⟨⟨v, hend⟩, hsame⟩
    · refine ⟨hactive, ?_, fun _ => hframes⟩
      rintro ⟨v, hv⟩
      cases hend.symm.trans hv
    · refine ⟨hsame.active, fun _ => hsame.frames, fun hnone => ?_⟩
      cases hnone.symm.trans hend
  · unfold Session.addProduct
    cases (m.session a).product? b with
    | none => rfl
    | some o =>
      have hchanges : Scope.Changes (p.path = ·) outputs (o.addTo p outputs) := Scope.changes_describe outputs rfl _ _ _
      exact hchanges.source?_eq hne.symm
  · rw [performAll_eq]
    exact List.map_congr_left fun pipeline _ => (a.perform_eq pipeline {}).1.symm

end Analyzer

/-- A loop whose body holds a loop without a pipeline. -/
def brokenLoop : Pipeline := loopOver [{ id := "@pixiebrix/for-each", config := [("body", .literal (.string "x"))] }]

/-- The broken loop ends the first run deep inside and leaves a frame behind; the second run does not see it. -/
theorem history_independent_brokenLoop :
    (plainAnalyzer.perform brokenLoop {}).1.frames.length = 1 ∧
    plainAnalyzer.performAll [brokenLoop, loopPipeline] { frames := [{}, {}], active := [.empty] } =
      [.error ⟨⟨"pipeline.1.config.body.__value__.0.config.body"⟩, .propertyIsPipeline "@pixiebrix/for-each" "body"⟩,
        .ok (Report.ofSteps {} (plainAnalyzer.steps loopPipeline))] := by
  obtain ⟨-, -, -, hruns, hrun⟩ := plainAnalyzer.history_independent
  refine ⟨rfl, ?_⟩
  rw [hruns, List.map_cons, List.map_singleton, (hrun brokenLoop {}).1, (hrun loopPipeline {}).1, run_loopPipeline]
  rfl

end BrickScope

import BrickScope.Analysis.Report
import Mathlib

/-!
# An analysis with a memory

The same analysis, done on a memory that is changed in place: a stack of frames, one for each open level, a stack of the
scopes that expressions are checked against, and all that has been found so far.  A piece of work that ends with a
violation leaves its traces in the memory, and a later run begins with what is left of an earlier one.

* `Memory`, `Work`: the memory, and what is done to it;
* `Analyzer.visitSite`, `Analyzer.visitBrick`: the work at the nodes of an outline;
* `Analyzer.perform`: one run, whatever the memory holds;
* `Analyzer.steady_visitSite`, `Analyzer.visitBrick_stacks`: what is put on a stack is taken off again.
-/

namespace BrickScope

/-! ## the memory -/

/-- A level that is open: what it inherits, and the outputs of its bricks so far. -/
structure Frame where
  vars : Scope := .empty
  outputs : Scope := .empty

/-- What an analyzer holds in the middle of its work; the innermost frame and the innermost scope come first. -/
structure Memory where
  bricks : Definitions := {}
  frames : List Frame := []
  active : List Scope := []
  knownVars : Table Scope := []
  annotations : List Annotation := []
  log : List Log.Entry := []

namespace Memory

def session (a : Analyzer) (m : Memory) : Session := ⟨a.context, a.settings, m.bricks⟩

def top (m : Memory) : Frame := m.frames.head?.getD {}

/-- The scope that expressions are checked against, if there is one. -/
def scope? (m : Memory) : Option Scope := m.active.head?.or (m.frames.head?.map Frame.vars)

def scope (m : Memory) : Scope := m.scope?.getD .empty

def say (entries : List Log.Entry) (m : Memory) : Memory := { m with log := m.log ++ entries }

/-- Record a scope; the words go into the log. -/
def record (words : String) (p : Position) (scope : Scope) (m : Memory) : Memory :=
  { m with knownVars := Table.insert m.knownVars p.path scope }.say [Log.debug (words ++ p.path)]

def pushScope (scope : Scope) (m : Memory) : Memory := { m with active := scope :: m.active }

def popScope (m : Memory) : Memory := { m with active := m.active.tail }

def pushFrame (p : Position) (vars : Scope) (m : Memory) : Memory :=
  { m with frames := { vars := vars } :: m.frames }.say
    [Log.debug ("push frame " ++ p.path ++ " (depth " ++ toString (m.frames.length + 1) ++ ")")]

def popFrame (p : Position) (m : Memory) : Memory :=
  { m with frames := m.frames.tail }.say [Log.debug ("pop frame " ++ p.path)]

/-- Look up a reference of an expression. -/
def checkReference (p : Position) (e : Expression) (m : Memory) (reference : String) : Memory :=
  if (m.scope?.map fun scope => scope.defines (Text.trim reference)).getD false then m
  else { m with annotations := Annotation.push m.annotations (.undefined p reference e.quote) }

def check (a : Analyzer) (p : Position) (e : Expression) (m : Memory) : Memory :=
  match e.references a.settings.checkTemplates with
  | .ok references => references.foldl (checkReference p e) m
  | .error stop => m.say [Log.warn ("Skipping malformed template at " ++ p.path ++ ": " ++ stop.opening.message ++
      " (index " ++ toString stop.index ++ ")")]

/-- Put the output of a brick into the innermost frame. -/
def addOutput (a : Analyzer) (p : Position) (b : Brick) (m : Memory) : Memory :=
  match (m.session a).product? b with
  | some o => { m with frames := m.frames.modifyHead fun f => { f with outputs := o.addTo p f.outputs } }.say (o.log p)
  | none => m

end Memory

/-! ## work -/

/-- What is done to a memory, and the violation that ended it. -/
abbrev Work := Memory → Memory × Option Violation

namespace Work

def act (f : Memory → Memory) : Work := fun m => (f m, none)

def fail (v : Violation) : Work := fun m => (m, some v)

/-- Go on, unless there was a violation. -/
def andThen (w rest : Work) : Work := fun m =>
  match w m with
  | (m', none) => rest m'
  | (m', some v) => (m', some v)

/-- Work between two actions, of which the second is done also if the work fails. -/
def between (enter leave : Memory → Memory) (w : Work) : Work := fun m => (leave (w (enter m)).1, (w (enter m)).2)

end Work

open Work (act fail)

namespace Analyzer

variable (a : Analyzer)

mutual

def visitSite : Site → Work
  | .literal _ _ => act id
  | .expression p e => act (Memory.check a p e)
  | .level level => visitLevel level
  | .document _ _ inside => visitSites inside
  | .element _ _ _ inside => visitSites inside
  | .deferred p _ row inside => fun m =>
    match row with
    | none => (act (Memory.record "recorded deferred scope " p m.scope)).andThen (visitSites inside) m
    | some e =>
      let scope := m.scope.setVariable p.path e.rowName .definitely true
      (act (Memory.record "recorded element scope " p scope)).andThen
        (.between (Memory.pushScope scope) Memory.popScope (visitSites inside)) m
  | .violation v => fail v
termination_by structural site => site

def visitSites : List Site → Work
  | [] => act id
  | site :: sites => (visitSite site).andThen (visitSites sites)
termination_by structural sites => sites

/-- The work at a pipeline that a brick owns. -/
def visitLevel : Level → Work
  | ⟨p, owner, bricks⟩ => fun m =>
    Work.between (Memory.pushFrame p ((m.session a).levelScope p owner m.scope)) (Memory.popFrame p)
      (visitBricks bricks) m
termination_by structural level => level

def visitBricks : List BrickSite → Work
  | [] => act id
  | b :: bricks => (visitBrick b).andThen (visitBricks bricks)
termination_by structural bricks => bricks

def visitBrick : BrickSite → Work
  | ⟨p, b, _, inside⟩ => fun m =>
    let scope := (m.session a).brickScope m.top.vars m.top.outputs b
    let inner : Work := match (m.session a).violation? p b with
      | some v => fail v
      | none => (Work.between (Memory.pushScope scope) Memory.popScope (visitSites inside)).andThen
          (act (Memory.addOutput a p b))
    (act (Memory.record "recorded scope " p scope)).andThen inner m
termination_by structural b => b

end

/-- The work at the first pipeline, for which a frame has been made before. -/
def visitRoot (pipeline : Pipeline) : Work :=
  a.visitBricks (pipeline.outline a.settings.isDocument ⟨a.settings.rootPath⟩).bricks

/-- One run.  All but the log is thrown away first, whatever an earlier run has left. -/
def perform (pipeline : Pipeline) (m : Memory) : Memory × Except Violation Report :=
  let m : Memory := { log := m.log }
  match pipeline.brickIds with
  | .error v => (m, .error v)
  | .ok ids =>
    let s := a.session ids
    let m := { m with bricks := s.bricks, frames := [{ vars := a.rootScope s }] }.say (a.preamble s)
    match a.visitRoot pipeline m with
    | (m, some v) => (m, .error v)
    | (m, none) =>
      let report : Report := ⟨m.knownVars, m.annotations⟩
      ({ m with frames := m.frames.tail, knownVars := [], annotations := [] }.say [report.summary], .ok report)

/-- Runs one after the other, each with the memory that the one before has left. -/
def performAll : List Pipeline → Memory → List (Except Violation Report)
  | [], _ => []
  | pipeline :: pipelines, m => (a.perform pipeline m).2 :: performAll pipelines (a.perform pipeline m).1

end Analyzer

/-! ## what is put on a stack is taken off again -/

namespace Memory

/-- The stacks, and what is known of the bricks, are the same. -/
structure SameStacks (m m' : Memory) : Prop where
  bricks : m'.bricks = m.bricks
  frames : m'.frames = m.frames
  active : m'.active = m.active

/-- The same but for the outputs in the innermost frame. -/
structure SameBelow (m m' : Memory) : Prop where
  bricks : m'.bricks = m.bricks
  vars : m'.frames.map Frame.vars = m.frames.map Frame.vars
  lower : m'.frames.tail = m.frames.tail
  active : m'.active = m.active

variable {m m' m'' : Memory}

theorem SameStacks.refl (m : Memory) : SameStacks m m := ⟨rfl, rfl, rfl⟩

theorem SameStacks.trans (h : SameStacks m m') (h' : SameStacks m' m'') : SameStacks m m'' :=
  ⟨h'.bricks.trans h.bricks, h'.frames.trans h.frames, h'.active.trans h.active⟩

theorem SameStacks.below (h : SameStacks m m') : SameBelow m m' :=
  ⟨h.bricks, by rw [h.frames], by rw [h.frames], h.active⟩

theorem SameBelow.trans (h : SameBelow m m') (h' : SameBelow m' m'') : SameBelow m m'' :=
  ⟨h'.bricks.trans h.bricks, h'.vars.trans h.vars, h'.lower.trans h.lower, h'.active.trans h.active⟩

theorem sameStacks_record (words : String) (p : Position) (scope : Scope) (m : Memory) :
    SameStacks m (m.record words p scope) := ⟨rfl, rfl, rfl⟩

theorem sameStacks_checkReference (p : Position) (e : Expression) (m : Memory) (reference : String) :
    SameStacks m (m.checkReference p e reference) := by
  unfold checkReference
  split <;> exact ⟨rfl, rfl, rfl⟩

theorem sameStacks_check (a : Analyzer) (p : Position) (e : Expression) (m : Memory) :
    SameStacks m (m.check a p e) := by
  have hfold : ∀ (references : List String) (m : Memory), SameStacks m (references.foldl (checkReference p e) m) := by
    intro references
    induction references with
    | nil => exact SameStacks.refl
    | cons r references ih => exact fun m => (sameStacks_checkReference p e m r).trans (ih _)
  unfold check
  split
  · exact hfold _ m
  · exact ⟨rfl, rfl, rfl⟩

/-- The output of a brick goes into the innermost frame, if there is one. -/
theorem addOutput_stacks (a : Analyzer) (p : Position) (b : Brick) (m : Memory) :
    (m.addOutput a p b).bricks = m.bricks ∧ (m.addOutput a p b).active = m.active ∧ (m.addOutput a p b).frames =
      m.frames.modifyHead fun f => { f with outputs := (m.session a).addProduct p b f.outputs } := by
  unfold addOutput Session.addProduct
  cases (m.session a).product? b with
  | none =>
    refine ⟨rfl, rfl, ?_⟩
    cases m.frames <;> rfl
  | some o => exact ⟨rfl, rfl, rfl⟩

end Memory

open Memory (SameStacks SameBelow)

namespace Work

variable {w rest : Work}

/-- The work behind another is done on what that has left, or not at all. -/
theorem andThen_eq (w rest : Work) (m : Memory) :
    (∃ v, (w m).2 = some v ∧ w.andThen rest m = w m) ∨ ((w m).2 = none ∧ w.andThen rest m = rest (w m).1) := by
  unfold andThen
  rcases hw : w m with ⟨m', _ | v⟩
  · exact .inr ⟨rfl, rfl⟩
  · exact .inl ⟨v, rfl, rfl⟩

theorem act_andThen (f : Memory → Memory) (rest : Work) (m : Memory) : (act f).andThen rest m = rest (f m) := rfl

/-- Both stacks are as before, whatever comes of the work. -/
def Steady (w : Work) : Prop := ∀ m, SameStacks m (w m).1

/-- Nothing on the stacks has changed but the outputs in the innermost frame, whatever comes of the work. -/
def Fills (w : Work) : Prop := ∀ m, SameBelow m (w m).1

theorem Steady.andThen (h : Steady w) (h' : Steady rest) : Steady (w.andThen rest) := by
  intro m
  rcases andThen_eq w rest m with ⟨v, -, he⟩ | ⟨-, he⟩
  · rw [he]
    exact h m
  · rw [he]
    exact (h m).trans (h' _)

theorem Fills.andThen (h : Fills w) (h' : Fills rest) : Fills (w.andThen rest) := by
  intro m
  rcases andThen_eq w rest m with ⟨v, -, he⟩ | ⟨-, he⟩
  · rw [he]
    exact h m
  · rw [he]
    exact (h m).trans (h' _)

/-- A scope is taken off by the one that has put it on. -/
theorem Steady.within_scope (h : Steady w) (scope : Scope) :
    Steady (between (Memory.pushScope scope) Memory.popScope w) := by
  intro m
  have hin := h (m.pushScope scope)
  have hactive : (w (m.pushScope scope)).1.active.tail = m.active := by rw [hin.active]; rfl
  exact ⟨hin.bricks, hin.frames, hactive⟩

/-- With its frame, a level throws its outputs away. -/
theorem Fills.within_frame (h : Fills w) (p : Position) (vars : Scope) :
    Steady (between (Memory.pushFrame p vars) (Memory.popFrame p) w) := by
  intro m
  have hin := h (m.pushFrame p vars)
  exact ⟨hin.bricks, hin.lower, hin.active⟩

end Work

namespace Analyzer

variable (a : Analyzer)

theorem visitBrick_of_violation {b : BrickSite} {m : Memory} {v : Violation}
    (h : (m.session a).violation? b.position b.brick = some v) :
    a.visitBrick b m =
      (m.record "recorded scope " b.position ((m.session a).brickScope m.top.vars m.top.outputs b.brick), some v) := by
  obtain ⟨p, b, isDocument, inside⟩ := b
  rw [visitBrick]
  dsimp only at h ⊢
  rw [Work.act_andThen, h]
  rfl

theorem visitBrick_of_noViolation {b : BrickSite} {m : Memory}
    (h : (m.session a).violation? b.position b.brick = none) {scope : Scope}
    (hscope : scope = (m.session a).brickScope m.top.vars m.top.outputs b.brick) :
    a.visitBrick b m = (Work.between (Memory.pushScope scope) Memory.popScope (a.visitSites b.inside)).andThen
      (act (Memory.addOutput a b.position b.brick)) (m.record "recorded scope " b.position scope) := by
  subst hscope
  obtain ⟨p, b, isDocument, inside⟩ := b
  rw [visitBrick]
  dsimp only at h ⊢
  rw [Work.act_andThen, h]

/-- The stacks after a brick: the innermost frame has its output, unless something was wrong. -/
theorem visitBrick_stacks {b : BrickSite} (h : (a.visitSites b.inside).Steady) (m : Memory) :
    ((a.visitBrick b m).2 = none ∧ (a.visitBrick b m).1.bricks = m.bricks ∧ (a.visitBrick b m).1.active = m.active ∧
      (a.visitBrick b m).1.frames = m.frames.modifyHead fun f =>
        { f with outputs := (m.session a).addProduct b.position b.brick f.outputs }) ∨
    (∃ v, (a.visitBrick b m).2 = some v) ∧ SameStacks m (a.visitBrick b m).1 := by
  set scope := (m.session a).brickScope m.top.vars m.top.outputs b.brick with hscope
  cases hv : (m.session a).violation? b.position b.brick with
  | some v =>
    rw [a.visitBrick_of_violation hv]
    exact .inr ⟨⟨v, rfl⟩, m.sameStacks_record _ _ _⟩
  | none =>
    rw [a.visitBrick_of_noViolation hv hscope]
    set w := Work.between (Memory.pushScope scope) Memory.popScope (a.visitSites b.inside)
    set m₁ := m.record "recorded scope " b.position scope
    have hw : SameStacks m (w m₁).1 := (m.sameStacks_record _ _ _).trans (h.within_scope scope m₁)
    rcases Work.andThen_eq w (act (Memory.addOutput a b.position b.brick)) m₁ with ⟨v, hfail, he⟩ | ⟨-, he⟩
    · rw [he]
      exact .inr ⟨⟨v, hfail⟩, hw⟩
    · obtain ⟨hbricks, hactive, hframes⟩ := (w m₁).1.addOutput_stacks a b.position b.brick
      have hsession : (w m₁).1.session a = m.session a := by
        unfold Memory.session
        rw [hw.bricks]
      rw [hsession, hw.frames] at hframes
      rw [he]
      exact .inl ⟨rfl, hbricks.trans hw.bricks, hactive.trans hw.active, hframes⟩

theorem fills_of_steady {b : BrickSite} (h : (a.visitSites b.inside).Steady) : (a.visitBrick b).Fills := by
  intro m
  rcases a.visitBrick_stacks h m with ⟨-, hbricks, hactive, hframes⟩ | ⟨-, hsame⟩
  · refine ⟨hbricks, ?_, ?_, hactive⟩ <;> rw [hframes] <;> cases m.frames <;> rfl
  · exact hsame.below

mutual

theorem steady_visitSite : ∀ site : Site, (a.visitSite site).Steady
  | .literal _ _ => Memory.SameStacks.refl
  | .expression p e => Memory.sameStacks_check a p e
  | .level level => steady_visitLevel level
  | .document _ _ inside => steady_visitSites inside
  | .element _ _ _ inside => steady_visitSites inside
  | .deferred p _ none inside => fun m =>
    (m.sameStacks_record _ p _).trans (steady_visitSites inside _)
  | .deferred p _ (some _) inside => fun m =>
    (m.sameStacks_record _ p _).trans ((steady_visitSites inside).within_scope _ _)
  | .violation _ => Memory.SameStacks.refl

theorem steady_visitSites : ∀ sites : List Site, (a.visitSites sites).Steady
  | [] => Memory.SameStacks.refl
  | site :: sites => (steady_visitSite site).andThen (steady_visitSites sites)

theorem steady_visitLevel : ∀ level : Level, (a.visitLevel level).Steady
  | ⟨p, _, bricks⟩ => fun m => (fills_visitBricks bricks).within_frame p _ m

theorem fills_visitBricks : ∀ bricks : List BrickSite, (a.visitBricks bricks).Fills
  | [] => fun m => (Memory.SameStacks.refl m).below
  | b :: bricks => (fills_visitBrick b).andThen (fills_visitBricks bricks)

theorem fills_visitBrick : ∀ b : BrickSite, (a.visitBrick b).Fills
  | ⟨_, _, _, inside⟩ => a.fills_of_steady (steady_visitSites inside)

end

end Analyzer

end BrickScope

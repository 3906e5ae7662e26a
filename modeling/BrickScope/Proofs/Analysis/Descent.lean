import BrickScope.Proofs.Analysis.Isolation
import BrickScope.Proofs.Analysis.ScopeLaw
import BrickScope.Proofs.Pipeline.Contents

/-!
# The walk through a brick

The walk of an analysis through a brick is put together from the walks at what occurs in the brick, each with what is
seen there: what the brick sees, and the variables of the rows around.  So a property of all walks has to be shown for
the parts only.

* `scopeIn`: what is seen in the rows of some lists;
* `Session.sitesSteps_builds`, `Session.bricksSteps_induction`: properties of walks, part by part;
* `Session.sitesSteps_within`: the walk at a node is a stretch of the walk through the brick;
* `Session.HandsTo`, `Session.Stacked`: how a level comes inside another, `Analyzer.stacked_openLevels`: on a run;
* `Session.Inward`, `Analyzer.openLevels_of_inward`: what goes from each level to those inside holds of all levels of a
  run;
* `Session.LooksInto`, `Analyzer.looksInto_walk`: what comes behind a brick that is entered.
-/

namespace BrickScope

open Position (Below)

/-! ## rows -/

/-- Add the variable of a row. -/
def Row.addTo (r : Row) (m : Scope) : Scope := m.setVariable r.position.path r.list.rowName .definitely true

/-- What is seen in some rows, the innermost first. -/
def scopeIn (rows : List Row) (scope : Scope) : Scope := rows.foldr Row.addTo scope

@[simp] theorem scopeIn_nil (scope : Scope) : scopeIn [] scope = scope := rfl

namespace Session

variable (s : Session)

/-! ## properties of walks -/

/-- A property of walks that holds at all that occurs among some sites of a brick, and is kept where walks are put
together. -/
structure Builds (depth : Nat) (scope : Scope) (sites : List Site) (Q : Walk Step → Prop) : Prop where
  empty : Q {}
  append : ∀ {w w' : Walk Step}, Q w → Q w' → Q (w ++ w')
  check : ∀ {rows : List Row} {p : Position} {e : Expression}, OccursIn sites rows (.expression p e) →
    Q ⟨[.check p e (scopeIn rows scope)], none⟩
  violation : ∀ {rows : List Row} {v : Violation}, OccursIn sites rows (.violation v) → Q ⟨[], some v⟩
  level : ∀ {rows : List Row} {l : Level}, OccursIn sites rows (.level l) →
    Q (s.levelSteps depth (scopeIn rows scope) l)
  body : ∀ {rows : List Row} {p : Position} {b : Brick} {row : Option Element} {inside : List Site} {w : Walk Step},
    OccursIn sites rows (.deferred p b row inside) → Q w →
    Q (.bracket (.enterBody p row.isSome (bodyScope p row (scopeIn rows scope))) w (.leaveBody p))

section

variable {s} {depth : Nat} {scope : Scope} {sites : List Site} {Q : Walk Step → Prop}

mutual

theorem siteSteps_builds (h : s.Builds depth scope sites Q) (outer : List Row) :
    ∀ site : Site, (∀ rows t, Occurs outer site rows t → OccursIn sites rows t) →
      Q (s.siteSteps depth (scopeIn outer scope) site)
  | .literal _ _, _ => h.empty
  | .expression _ _, ho => h.check (ho _ _ .here)
  | .level _, ho => h.level (ho _ _ .here)
  | .document _ _ inside, ho =>
    sitesSteps_builds_inside h outer inside fun _ hx rows t hxt => ho rows t (.document hx hxt)
  | .element _ _ _ inside, ho =>
    sitesSteps_builds_inside h outer inside fun _ hx rows t hxt => ho rows t (.element hx hxt)
  | .deferred _ _ none inside, ho =>
    h.body (ho _ _ .here)
      (sitesSteps_builds_inside h outer inside fun _ hx rows t hxt => ho rows t (.deferred hx hxt))
  | .deferred p _ (some e) inside, ho =>
    h.body (ho _ _ .here)
      (sitesSteps_builds_inside h (⟨p, e⟩ :: outer) inside fun _ hx rows t hxt => ho rows t (.row hx hxt))
  | .violation _, ho => h.violation (ho _ _ .here)
termination_by structural site => site

theorem sitesSteps_builds_inside (h : s.Builds depth scope sites Q) (outer : List Row) :
    ∀ inside : List Site, (∀ x ∈ inside, ∀ rows t, Occurs outer x rows t → OccursIn sites rows t) →
      Q (s.sitesSteps depth (scopeIn outer scope) inside)
  | [], _ => h.empty
  | x :: inside, ho => by
    rw [sitesSteps]
    exact h.append (siteSteps_builds h outer x (ho x List.mem_cons_self))
      (sitesSteps_builds_inside h outer inside fun y hy => ho y (List.mem_cons_of_mem _ hy))
termination_by structural inside => inside

end

theorem sitesSteps_builds (h : s.Builds depth scope sites Q) : Q (s.sitesSteps depth scope sites) :=
  sitesSteps_builds_inside h [] sites fun x hx _ _ ho => ⟨x, hx, ho⟩

/-- The walk through the bricks of a level; the outputs that are carried along are those of the bricks before. -/
theorem bricksSteps_cons (depth : Nat) (inherited : Scope) (p : Position) (earlier : List Brick) (b : Brick)
    (later : List Brick) :
    s.bricksSteps depth inherited ⟨s.outputTrees p earlier⟩
        (brickSites s.settings.isDocument p earlier.length (b :: later)) =
      s.brickSteps depth inherited ⟨s.outputTrees p earlier⟩
          (brickSite s.settings.isDocument (p.brick earlier.length) b) ++
        s.bricksSteps depth inherited ⟨s.outputTrees p (earlier ++ [b])⟩
          (brickSites s.settings.isDocument p (earlier ++ [b]).length later) := by
  have hlen : earlier.length + 1 = (earlier ++ [b]).length := by simp
  rw [brickSites, bricksSteps, brickSite_position, brickSite_brick, ← hlen, ← s.addProduct_outputTrees]
  rfl

/-- Induction over the bricks of a level, from the last one on; the bricks before are known at each. -/
theorem bricksSteps_induction {motive : List Brick → Walk Step → Prop} {inherited : Scope} {p : Position}
    {all : List Brick} (empty : ∀ earlier, motive earlier {})
    (brick : ∀ earlier b later, all = earlier ++ b :: later → ∀ {rest : Walk Step}, motive (earlier ++ [b]) rest →
      motive earlier (s.brickSteps depth inherited ⟨s.outputTrees p earlier⟩
        (brickSite s.settings.isDocument (p.brick earlier.length) b) ++ rest)) :
    motive [] (s.bricksSteps depth inherited .empty (brickSites s.settings.isDocument p 0 all)) := by
  have hfrom : ∀ later earlier, all = earlier ++ later → motive earlier (s.bricksSteps depth inherited
      ⟨s.outputTrees p earlier⟩ (brickSites s.settings.isDocument p earlier.length later)) := by
    intro later
    induction later with
    | nil =>
      intro earlier _
      rw [brickSites, bricksSteps]
      exact empty earlier
    | cons b later ih =>
      intro earlier hall
      rw [bricksSteps_cons]
      exact brick earlier b later hall (ih (earlier ++ [b]) (by simpa using hall))
  exact hfrom all [] rfl

/-- A property of walks that the walk through each brick of a level has. -/
theorem bricksSteps_builds {inherited : Scope} {p : Position} (empty : Q {})
    (append : ∀ {w w' : Walk Step}, Q w → Q w' → Q (w ++ w')) {all : List Brick}
    (brick : ∀ earlier b later, all = earlier ++ b :: later → Q (s.brickSteps depth inherited
      ⟨s.outputTrees p earlier⟩ (brickSite s.settings.isDocument (p.brick earlier.length) b))) :
    Q (s.bricksSteps depth inherited .empty (brickSites s.settings.isDocument p 0 all)) :=
  bricksSteps_induction (motive := fun _ => Q) (fun _ => empty)
    fun earlier b later hall _ hrest => append (brick earlier b later hall) hrest

/-- If the walk through a level comes to its end, so does the walk through each of its bricks. -/
theorem brickSteps_complete {inherited : Scope} {p : Position} {all : List Brick}
    (h : (s.bricksSteps depth inherited .empty (brickSites s.settings.isDocument p 0 all)).Complete)
    {earlier later : List Brick} {b : Brick} (hall : all = earlier ++ b :: later) :
    (s.brickSteps depth inherited ⟨s.outputTrees p earlier⟩
      (brickSite s.settings.isDocument (p.brick earlier.length) b)).Complete := by
  have hfrom : ∀ mid done, earlier = done ++ mid → (s.bricksSteps depth inherited ⟨s.outputTrees p done⟩
      (brickSites s.settings.isDocument p done.length (mid ++ b :: later))).Complete →
      (s.bricksSteps depth inherited ⟨s.outputTrees p earlier⟩
        (brickSites s.settings.isDocument p earlier.length (b :: later))).Complete := by
    intro mid
    induction mid with
    | nil =>
      intro done hd hc
      rw [List.append_nil] at hd
      rw [hd]
      exact hc
    | cons x mid ih =>
      intro done hd hc
      rw [List.cons_append, bricksSteps_cons] at hc
      exact ih (done ++ [x]) (by simpa using hd) (Walk.complete_append.1 hc).2
  rw [hall] at h
  have hat := hfrom earlier [] rfl h
  rw [bricksSteps_cons] at hat
  exact (Walk.complete_append.1 hat).1

theorem brickSite_eq (documents : String → Bool) (p : Position) (b : Brick) :
    brickSite documents p b = ⟨p, b, documents b.id, (brickSite documents p b).inside⟩ := by
  cases b
  rfl

/-- The walk through a brick whose constructs are in order. -/
theorem brickSteps_of_noViolation (depth : Nat) (inherited : Scope) (p : Position) (earlier : List Brick)
    {q : Position} {b : Brick} (h : s.violation? q b = none) :
    ∃ product, s.brickSteps depth inherited ⟨s.outputTrees p earlier⟩ (brickSite s.settings.isDocument q b) =
      .bracket (.enterBrick q b (s.visible inherited p earlier b))
        (s.sitesSteps depth (s.visible inherited p earlier b) (brickSite s.settings.isDocument q b).inside)
        (.leaveBrick q product) := by
  rw [brickSite_eq, brickSteps, h, brickScope_outputTrees]
  exact ⟨_, rfl⟩

theorem brickSteps_of_violation {inherited : Scope} {p q : Position} {earlier : List Brick} {b : Brick}
    {v : Violation} (h : s.violation? q b = some v) :
    s.brickSteps depth inherited ⟨s.outputTrees p earlier⟩ (brickSite s.settings.isDocument q b) =
      .bracket (.enterBrick q b (s.visible inherited p earlier b)) ⟨[], some v⟩ (.leaveBrick q none) := by
  rw [brickSite_eq, brickSteps, h, brickScope_outputTrees]
  rfl

/-! ## stretches of a walk -/

theorem sitesSteps_member {active : Scope} {x : Site} (hx : x ∈ sites)
    (h : (s.sitesSteps depth active sites).Complete) :
    (s.siteSteps depth active x).Complete ∧
      (s.siteSteps depth active x).events <:+: (s.sitesSteps depth active sites).events := by
  induction sites with
  | nil => cases hx
  | cons y sites ih =>
    rw [sitesSteps] at h ⊢
    obtain ⟨hy, hrest⟩ := Walk.complete_append.1 h
    rw [Walk.events_append hy]
    rcases List.mem_cons.1 hx with rfl | hx
    · exact ⟨hy, (List.prefix_append _ _).isInfix⟩
    · obtain ⟨hc, hi⟩ := ih hx hrest
      exact ⟨hc, hi.trans (List.suffix_append _ _).isInfix⟩

theorem siteSteps_within {outer rows : List Row} {t site : Site} (ho : Occurs outer t rows site) :
    (s.siteSteps depth (scopeIn outer scope) t).Complete →
      (s.siteSteps depth (scopeIn rows scope) site).Complete ∧
        (s.siteSteps depth (scopeIn rows scope) site).events <:+:
          (s.siteSteps depth (scopeIn outer scope) t).events := by
  induction ho with
  | here => exact fun h => ⟨h, List.infix_refl _⟩
  | document hx _ ih =>
    intro h
    obtain ⟨hc, hi⟩ := sitesSteps_member hx h
    exact ⟨(ih hc).1, (ih hc).2.trans hi⟩
  | element hx _ ih =>
    intro h
    obtain ⟨hc, hi⟩ := sitesSteps_member hx h
    exact ⟨(ih hc).1, (ih hc).2.trans hi⟩
  | deferred hx _ ih =>
    intro h
    obtain ⟨hc, hi⟩ := sitesSteps_member hx h
    exact ⟨(ih hc).1, ((ih hc).2.trans hi).trans ⟨[_], [_], rfl⟩⟩
  | row hx _ ih =>
    intro h
    obtain ⟨hc, hi⟩ := sitesSteps_member hx h
    exact ⟨(ih hc).1, ((ih hc).2.trans hi).trans ⟨[_], [_], rfl⟩⟩

/-- The walk at a node, with what is seen there, is a stretch of the walk through the brick. -/
theorem sitesSteps_within {rows : List Row} {site : Site} (ho : OccursIn sites rows site)
    (h : (s.sitesSteps depth scope sites).Complete) :
    (s.siteSteps depth (scopeIn rows scope) site).Complete ∧
      (s.siteSteps depth (scopeIn rows scope) site).events <:+: (s.sitesSteps depth scope sites).events := by
  obtain ⟨x, hx, ho⟩ := ho
  obtain ⟨hc, hi⟩ := sitesSteps_member hx h
  obtain ⟨hc', hi'⟩ := siteSteps_within ho hc
  exact ⟨hc', hi'.trans hi⟩

end

/-! ## levels -/

/-- The level `l` hands the scope `inherited` down to the level at `p`: the open brick of `l` holds a pipeline there,
which inherits what the brick sees, with the variables that are added on the way. -/
inductive HandsTo : OpenLevel → Position → Scope → Prop
  | holds {p : Position} {inherited : Scope} {earlier : List Brick} {b : Brick} {rows : List Row} {q : Position}
    {reach : Reach} {inner : List Brick}
    (h : Holds s.settings.isDocument (p.brick earlier.length) b rows (.value q reach (.pipeline inner))) :
    HandsTo ⟨p, inherited, earlier ++ [b]⟩ (q.nested ["__value__"]) (s.levelScope (q.nested ["__value__"])
      (some (reach.owner b)) (scopeIn rows (s.visible inherited p earlier b)))

/-- A property of levels, said of their position and of what they inherit, that goes over from a level to the pipelines
that its bricks hold. -/
def Inward (P : Position → Scope → Prop) : Prop :=
  ∀ {p : Position} {inherited : Scope}, P p inherited →
    ∀ (earlier : List Brick) {b : Brick} {rows : List Row} {q : Position} {reach : Reach} {inner : List Brick},
      Holds s.settings.isDocument (p.brick earlier.length) b rows (.value q reach (.pipeline inner)) →
      P (q.nested ["__value__"]) (s.levelScope (q.nested ["__value__"]) (some (reach.owner b))
        (scopeIn rows (s.visible inherited p earlier b)))

/-- Levels that may be open at one time, the innermost first: the root at `p₀`, which inherits `root`, and inside of it
levels that are handed their scopes by the level around them. -/
inductive Stacked (p₀ : Position) (root : Scope) : List OpenLevel → Prop
  | empty : Stacked p₀ root []
  | root (bricks : List Brick) : Stacked p₀ root [⟨p₀, root, bricks⟩]
  | nested {l : OpenLevel} {outer : List OpenLevel} {p : Position} {inherited : Scope} (bricks : List Brick)
    (h : Stacked p₀ root (l :: outer)) (hl : s.HandsTo l p inherited) :
    Stacked p₀ root (⟨p, inherited, bricks⟩ :: l :: outer)

/-- The levels that are open behind a step are stacked. -/
def StaysStacked (p₀ : Position) (root : Scope) (σ : Stacks) (step : Step) : Prop :=
  s.Stacked p₀ root (σ.after step).levels

/-- On the walk through the bricks of a level the open levels stay stacked, and the level is open again at its end. -/
def StacksBricks (p₀ : Position) (root : Scope) (bricks : List Brick) : Prop :=
  ∀ (depth : Nat) {p : Position} {inherited : Scope} {outer : List OpenLevel},
    s.Stacked p₀ root (⟨p, inherited, []⟩ :: outer) → ∀ active : List Scope,
      ∃ done, Leads (s.StaysStacked p₀ root) ⟨⟨p, inherited, []⟩ :: outer, active⟩
        (s.bricksSteps depth inherited .empty (brickSites s.settings.isDocument p 0 bricks)).events
        ⟨⟨p, inherited, done⟩ :: outer, active⟩

section

variable {s} {p₀ p : Position} {root inherited : Scope} {outer : List OpenLevel}

theorem Stacked.with_bricks {earlier : List Brick} (h : s.Stacked p₀ root (⟨p, inherited, earlier⟩ :: outer))
    (bricks : List Brick) : s.Stacked p₀ root (⟨p, inherited, bricks⟩ :: outer) := by
  cases h with
  | root => exact .root bricks
  | nested _ h hl => exact .nested bricks h hl

/-- The walk through what a brick holds, while the brick is the last one of the innermost open level. -/
theorem stacked_sitesSteps {earlier : List Brick} {b : Brick}
    (hopen : s.Stacked p₀ root (⟨p, inherited, earlier ++ [b]⟩ :: outer))
    (hinner : ∀ {rows : List Row} {q : Position} {reach : Reach} {inner : List Brick},
      Holds s.settings.isDocument (p.brick earlier.length) b rows (.value q reach (.pipeline inner)) →
      s.StacksBricks p₀ root inner) (depth : Nat) (active : List Scope) :
    Leads (s.StaysStacked p₀ root) ⟨⟨p, inherited, earlier ++ [b]⟩ :: outer, active⟩
      (s.sitesSteps depth (s.visible inherited p earlier b)
        (brickSite s.settings.isDocument (p.brick earlier.length) b).inside).events
      ⟨⟨p, inherited, earlier ++ [b]⟩ :: outer, active⟩ := by
  refine sitesSteps_builds (Q := fun w => ∀ active, Leads (s.StaysStacked p₀ root)
    ⟨⟨p, inherited, earlier ++ [b]⟩ :: outer, active⟩ w.events ⟨⟨p, inherited, earlier ++ [b]⟩ :: outer, active⟩)
    ⟨fun _ => .nil _, fun hw hw' active => (hw active).walk_append (hw' active), ?_, fun _ _ => .nil _, ?_, ?_⟩ active
  · intro rows q e _ active
    exact Leads.single _ _ hopen
  · -- a nested pipeline
    intro rows l ho active
    cases shown_of_occurs ho with
    | level hh =>
      have hnested := hopen.nested [] (.holds hh)
      obtain ⟨done, hbricks⟩ := hinner hh (depth + 1) hnested active
      rw [levelSteps]
      exact Leads.bracket hnested hbricks hopen rfl
  · intro rows q b' row inside w _ hw active
    refine Leads.bracket hopen (hw _) hopen ?_
    cases row with
    | none => cases active <;> rfl
    | some e => rfl

theorem stacked_brickSteps {earlier : List Brick} {b : Brick}
    (hopen : s.Stacked p₀ root (⟨p, inherited, earlier⟩ :: outer))
    (hinner : ∀ {rows : List Row} {q : Position} {reach : Reach} {inner : List Brick},
      Holds s.settings.isDocument (p.brick earlier.length) b rows (.value q reach (.pipeline inner)) →
      s.StacksBricks p₀ root inner) (depth : Nat) (active : List Scope) :
    Leads (s.StaysStacked p₀ root) ⟨⟨p, inherited, earlier⟩ :: outer, active⟩
      (s.brickSteps depth inherited ⟨s.outputTrees p earlier⟩
        (brickSite s.settings.isDocument (p.brick earlier.length) b)).events
      ⟨⟨p, inherited, earlier ++ [b]⟩ :: outer, active⟩ := by
  have hentered := hopen.with_bricks (earlier ++ [b])
  cases hv : s.violation? (p.brick earlier.length) b with
  | some v =>
    rw [brickSteps_of_violation hv]
    exact Leads.bracket hentered (.nil _) hentered rfl
  | none =>
    obtain ⟨product, hwalk⟩ := brickSteps_of_noViolation depth inherited p earlier hv
    rw [hwalk]
    exact Leads.bracket hentered (stacked_sitesSteps hentered hinner depth _) hentered rfl

theorem stacksBricks (p₀ : Position) (root : Scope) (bricks : List Brick) : s.StacksBricks p₀ root bricks := by
  induction bricks using @bricks_induction s.settings.isDocument with
  | step bricks ih =>
    intro depth p inherited outer hopen active
    -- the bricks before are those that the innermost level has already
    refine bricksSteps_induction (motive := fun earlier w => ∃ done, Leads (s.StaysStacked p₀ root)
      ⟨⟨p, inherited, earlier⟩ :: outer, active⟩ w.events ⟨⟨p, inherited, done⟩ :: outer, active⟩)
      (fun earlier => ⟨earlier, .nil _⟩) ?_
    rintro earlier b later hall rest ⟨done, hrest⟩
    have hb := stacked_brickSteps (hopen.with_bricks earlier) (ih b (by simp [hall])) depth active
    exact (hb.walk_append_or hrest).elim (fun h => ⟨_, h⟩) fun h => ⟨done, h⟩

theorem Stacked.of_inward {P : Position → Scope → Prop} (h : s.Inward P) (hroot : P p₀ root) {levels : List OpenLevel}
    (hs : s.Stacked p₀ root levels) : ∀ l ∈ levels, P l.position l.inherited := by
  induction hs with
  | empty => simp
  | root bricks => simpa using hroot
  | nested bricks _ hl ih =>
    refine List.forall_mem_cons.2 ⟨?_, ih⟩
    cases hl with
    | holds hh => exact h (ih _ List.mem_cons_self) _ hh

end

/-! ## bricks -/

/-- Behind each brick that is entered on a walk comes the walk through what it holds, with what the brick sees, and then
the brick is left. -/
def LooksInto (w : Walk Step) : Prop :=
  w.Complete → ∀ (before after : List Step) (p : Position) (b : Brick) (scope : Scope),
    w.events = before ++ .enterBrick p b scope :: after →
    ∃ depth product rest, (s.sitesSteps depth scope (brickSite s.settings.isDocument p b).inside).Complete ∧
      after = (s.sitesSteps depth scope (brickSite s.settings.isDocument p b).inside).events ++
        .leaveBrick p product :: rest

section

variable {s} {w w' : Walk Step}

/-- A place in one list behind another one. -/
theorem place_of_append {α : Type} {xs ys before after : List α} {x : α} (h : xs ++ ys = before ++ x :: after) :
    (∃ rest, xs = before ++ x :: rest ∧ after = rest ++ ys) ∨ ∃ rest, before = xs ++ rest ∧ ys = rest ++ x :: after := by
  rcases List.append_eq_append_iff.1 h with ⟨rest, hb, hy⟩ | ⟨rest, hx, hr⟩
  · exact .inr ⟨rest, hb, hy⟩
  · cases rest with
    | nil => exact .inr ⟨[], by simpa using hx.symm, by simpa using hr.symm⟩
    | cons y rest =>
      obtain ⟨rfl, rfl⟩ := List.cons.inj hr
      exact .inl ⟨rest, hx, rfl⟩

theorem LooksInto.append (h : s.LooksInto w) (h' : s.LooksInto w') : s.LooksInto (w ++ w') := by
  intro hc before after p b scope he
  obtain ⟨hw, hw'⟩ := Walk.complete_append.1 hc
  rw [Walk.events_append hw] at he
  rcases place_of_append he with ⟨rest, hx, rfl⟩ | ⟨rest, -, hy⟩
  · obtain ⟨depth, product, rest', hin, rfl⟩ := h hw _ _ _ _ _ hx
    exact ⟨depth, product, rest' ++ w'.events, hin, by simp⟩
  · exact h' hw' _ _ _ _ _ hy

theorem looksInto_single {step : Step} (h : ∀ p b scope, step ≠ .enterBrick p b scope) : s.LooksInto ⟨[step], none⟩ := by
  intro _ before after p b scope he
  have hm : Step.enterBrick p b scope ∈ [step] := by
    rw [show [step] = before ++ _ :: after from he]
    simp
  exact absurd (List.mem_singleton.1 hm).symm (h p b scope)

theorem LooksInto.bracket {first last : Step} (h : s.LooksInto w) (hf : ∀ p b scope, first ≠ .enterBrick p b scope)
    (hl : ∀ p b scope, last ≠ .enterBrick p b scope) : s.LooksInto (.bracket first w last) := by
  intro hc
  have heq : Walk.bracket first w last = ⟨[first], none⟩ ++ (w ++ ⟨[last], none⟩) := by
    obtain ⟨events, failure⟩ := w
    obtain rfl : failure = none := hc
    rfl
  rw [heq] at hc ⊢
  exact (looksInto_single hf).append (h.append (looksInto_single hl)) hc

theorem looksInto_brick {depth : Nat} {scope : Scope} {p : Position} {b : Brick} {product : Option Product}
    (h : s.LooksInto (s.sitesSteps depth scope (brickSite s.settings.isDocument p b).inside)) :
    s.LooksInto (.bracket (.enterBrick p b scope)
      (s.sitesSteps depth scope (brickSite s.settings.isDocument p b).inside) (.leaveBrick p product)) := by
  intro hc before after q b' scope' he
  cases before with
  | nil =>
    rw [Walk.events_bracket, List.nil_append, List.cons_append] at he
    obtain ⟨hstep, rfl⟩ := List.cons.inj he
    cases hstep
    exact ⟨depth, product, [], hc, rfl⟩
  | cons step before =>
    rw [Walk.events_bracket, List.cons_append, List.cons_append] at he
    obtain ⟨-, he⟩ := List.cons.inj he
    have hleave : s.LooksInto ⟨[.leaveBrick p product], none⟩ := looksInto_single (by simp)
    refine h.append hleave (Walk.complete_append.2 ⟨hc, rfl⟩) before after q b' scope' ?_
    rw [Walk.events_append (Walk.complete_bracket.1 hc)]
    exact he

theorem looksInto_bricksSteps (bricks : List Brick) :
    ∀ (depth : Nat) (p : Position) (inherited : Scope),
      s.LooksInto (s.bricksSteps depth inherited .empty (brickSites s.settings.isDocument p 0 bricks)) := by
  induction bricks using @bricks_induction s.settings.isDocument with
  | step bricks ih =>
    intro depth p inherited
    have hempty : s.LooksInto {} := by
      intro _ before after q b scope he
      simp at he
    have hfail : ∀ {events : List Step} {v : Violation}, s.LooksInto ⟨events, some v⟩ := fun hc => by cases hc
    refine bricksSteps_builds hempty LooksInto.append fun earlier b later hall => ?_
    have hb : b ∈ bricks := by simp [hall]
    cases hv : s.violation? (p.brick earlier.length) b with
    | some v =>
      rw [brickSteps_of_violation hv]
      exact hfail
    | none =>
      obtain ⟨product, hwalk⟩ := brickSteps_of_noViolation depth inherited p earlier hv
      rw [hwalk]
      refine looksInto_brick (sitesSteps_builds ?_)
      refine ⟨hempty, LooksInto.append, fun _ => looksInto_single (by simp), fun _ => hfail, ?_, ?_⟩
      · intro rows l ho
        cases shown_of_occurs ho with
        | level hh =>
          rw [levelSteps]
          exact (ih b hb hh (depth + 1) _ _).bracket (by simp) (by simp)
      · intro rows q b' row inside w _ hw
        exact hw.bracket (by simp) (by simp)

end

end Session

/-! ## runs -/

namespace Analyzer

variable {a : Analyzer} {pipeline : Pipeline}

/-- The walk of a run, with the root level written out. -/
theorem walk_eq_bracket (a : Analyzer) (pipeline : Pipeline) :
    a.walk pipeline = .bracket (.openLevel ⟨a.settings.rootPath⟩ 1 (a.rootScope (a.sessionFor pipeline)))
      ((a.sessionFor pipeline).bricksSteps 1 (a.rootScope (a.sessionFor pipeline)) .empty
        (brickSites a.settings.isDocument ⟨a.settings.rootPath⟩ 0 pipeline))
      (.closeLevel ⟨a.settings.rootPath⟩ 1) := by
  rw [walk_eq, outline, Pipeline.outline, Session.levelSteps]
  rfl

/-- The levels that are open at some point of a run are stacked. -/
theorem stacked_openLevels {before after : List Step} (hs : a.steps pipeline = before ++ after) :
    (a.sessionFor pipeline).Stacked ⟨a.settings.rootPath⟩ (a.rootScope (a.sessionFor pipeline))
      (openLevels before) := by
  have hroot : (a.sessionFor pipeline).Stacked ⟨a.settings.rootPath⟩ (a.rootScope (a.sessionFor pipeline))
      [⟨_, _, []⟩] := .root []
  obtain ⟨done, hbricks⟩ := Session.stacksBricks _ _ pipeline 1 hroot []
  have hall : Leads ((a.sessionFor pipeline).StaysStacked ⟨a.settings.rootPath⟩ (a.rootScope (a.sessionFor pipeline)))
      {} (a.steps pipeline) {} := by
    rw [steps, walk_eq_bracket]
    exact Leads.bracket hroot hbricks .empty rfl
  rcases List.eq_nil_or_concat' before with rfl | ⟨earlier, step, rfl⟩
  · exact .empty
  · have halong := hall.1
    rw [hs, List.append_assoc] at halong
    rw [openLevels, Stacks.replay_append]
    exact halong.at

/-- What goes inwards, and holds at the root, holds of every level that is open at some point of a run. -/
theorem openLevels_of_inward {P : Position → Scope → Prop} (h : (a.sessionFor pipeline).Inward P)
    (hroot : P ⟨a.settings.rootPath⟩ (a.rootScope (a.sessionFor pipeline))) {before after : List Step}
    (hs : a.steps pipeline = before ++ after) {l : OpenLevel} (hl : l ∈ openLevels before) :
    P l.position l.inherited :=
  (stacked_openLevels hs).of_inward h hroot l hl

theorem looksInto_walk (a : Analyzer) (pipeline : Pipeline) : (a.sessionFor pipeline).LooksInto (a.walk pipeline) := by
  rw [walk_eq_bracket]
  exact (Session.looksInto_bricksSteps pipeline 1 _ _).bracket (by simp) (by simp)

end Analyzer

end BrickScope

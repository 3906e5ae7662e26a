import BrickScope.Proofs.Analysis.Trace
import BrickScope.Proofs.Existence.Naming

/-!
# Names that are bound

The analysis binds names in three ways: the output of a brick for the bricks behind it, the variables that a rule
injects for a pipeline, and the element of a list for its body.  Outputs and injected variables with a schema are
recorded under their names as they are, the others under the paths that their names spell.  So the latter are always
found by their names, and the former if the name is one segment; otherwise a name is found only if it would be without
the binding.

* `Injection.addAll`, `Session.seenWith`: what the first brick of a nested pipeline sees, by the variables injected;
* `Session.source?_visible_output`: the tree of an output;
* `Session.FindsNames`, `Analyzer.bound_names_found`: which names are found on a run.
-/

namespace BrickScope

open Reference (IsOneSegment segments withSigil)

/-! ## injected variables -/

namespace Injection

/-- Add some injected variables, one after the other. -/
def addAll (is : List Injection) (b : Brick) (p : Position) (m : Scope) : Scope :=
  is.foldl (fun m i => i.addTo b p m) m

variable {i : Injection} {p : Position} {x : String}

theorem addAll_append (is js : List Injection) (b : Brick) (p : Position) (m : Scope) :
    addAll (is ++ js) b p m = addAll js b p (addAll is b p m) := List.foldl_append

theorem head?_boundName (i : Injection) (b : Brick) : (i.boundName b).toList.head? = some Reference.sigil :=
  Reference.head?_withSigil _

/-- A variable without a schema is recorded under the path that its name spells. -/
theorem addTo_of_none (h : i.schema = none) (b : Brick) (p : Position) (m : Scope) :
    i.addTo b p m = m.write p.path (segments (i.boundName b)) .definitely (Node.stamp .definitely true false) := by
  unfold addTo
  rw [h]
  dsimp only
  rw [Scope.setVariable, Scope.set, Reference.withSigil_of_head? (i.head?_boundName b)]

/-- A variable with a schema is recorded under its name. -/
theorem addTo_of_schema {schema : Schema} (h : i.schema = some schema) (hd : schema.describes = true) (b : Brick)
    (p : Position) (m : Scope) :
    i.addTo b p m = m.write p.path [i.boundName b] .definitely fun n => n.describe none .definitely false schema := by
  unfold addTo
  rw [h]
  exact if_pos hd

/-- All that is added to a scope is one write to the source of the pipeline, which is the same for all scopes. -/
theorem addTo_cases (i : Injection) (b : Brick) (p : Position) :
    (∀ m, i.addTo b p m = m) ∨ ∃ s path e f, (∀ c : Node, c.KeepsMarks (f c)) ∧
      ∀ m, i.addTo b p m = m.write p.path (s :: path) e f := by
  cases hi : i.schema with
  | none =>
    obtain ⟨s, path, hs, -⟩ := Reference.exists_segments_eq_cons (i.head?_boundName b)
    refine .inr ⟨s, path, .definitely, _, Node.keepsMarks_stamp .definitely true false, fun m => ?_⟩
    rw [addTo_of_none hi, hs]
  | some schema =>
    cases hd : schema.describes with
    | false =>
      refine .inl fun m => ?_
      simp [addTo, hi, Scope.describe, hd]
    | true =>
      exact .inr ⟨_, [], _, _, Node.keepsMarks_describe none schema .definitely false, addTo_of_schema hi hd b p⟩

end Injection

namespace Scope

variable {m m' : Scope} {p : Position} {x : String}

theorem Marks.addAll {path : List String} (h : m.Marks p.path path) (is : List Injection) (b : Brick) :
    (Injection.addAll is b p m).Marks p.path path := by
  induction is generalizing m with
  | nil => exact h
  | cons i is ih =>
    have hi : (i.addTo b p m).Marks p.path path := by
      rcases i.addTo_cases b p with hi | ⟨s, path', e, f, hf, hi⟩
      · rw [hi]
        exact h
      · rw [hi]
        exact h.write s path' e hf
    exact ih hi

theorem AlikeAt.addAll (h : m.AlikeAt p.path x m') (is : List Injection) (b : Brick) :
    (Injection.addAll is b p m).AlikeAt p.path x (Injection.addAll is b p m') := by
  induction is generalizing m m' with
  | nil => exact h
  | cons i is ih =>
    have hi : (i.addTo b p m).AlikeAt p.path x (i.addTo b p m') := by
      rcases i.addTo_cases b p with hi | ⟨s, path, e, f, -, hi⟩
      · rw [hi, hi]
        exact h
      · rw [hi, hi]
        exact h.write s path e f
    exact ih hi

theorem Traced.addAll (h : m.Traced) (hp : p.path ≠ "trace") (is : List Injection) (b : Brick) :
    (Injection.addAll is b p m).Traced := by
  have hchange : m.Changes (p.path = ·) (Injection.addAll is b p m) :=
    changes_foldl (fun i _ m => i.changes_addTo b rfl m) m
  exact hchange.traced hp h

theorem AlikeAt.observe {source k : String} (h : m.AlikeAt source x m') (hk : k ≠ source) (v : Json) :
    (m.observe k v []).AlikeAt source x (m'.observe k v []) := by
  unfold Scope.observe
  split
  · exact h
  · exact h.write_of_ne hk _ _ _

end Scope

theorem Brick.head?_outputVariable {b : Brick} {name : String} (h : b.outputVariable? = some name) :
    name.toList.head? = some Reference.sigil := by
  obtain ⟨key, -, hkey⟩ := Option.bind_eq_some_iff.1 h
  dsimp only at hkey
  split at hkey
  · cases hkey
  · cases hkey
    exact Reference.head?_withSigil _

namespace Session

variable (s : Session)

/-- What the first brick of the pipeline at `p` sees, where some variables are injected. -/
def seenWith (is : List Injection) (b : Brick) (p : Position) (m : Scope) (first : Brick) : Scope :=
  s.visible (Injection.addAll is b p m) p [] first

variable {s} {i : Injection} {b : Brick} {p : Position} {m m' : Scope} {x : String}

theorem alikeAt_visible (h : m.AlikeAt p.path x m') (hp : p.path ≠ "trace") (first : Brick) :
    (s.visible m p [] first).AlikeAt p.path x (s.visible m' p [] first) := by
  rw [visible_eq, visible_eq]
  split
  · exact h.observe hp.symm _
  · exact h

theorem marks_visible {path : List String} (h : m.Marks p.path path) (hp : p.path ≠ "trace") (first : Brick) :
    (s.visible m p [] first).Marks p.path path := by
  have hnone : ∀ j < ([] : List Brick).length, p.path ≠ (p.brick j).path := fun j hj => absurd hj (Nat.not_lt_zero j)
  rw [Scope.Marks, s.source?_visible_of_ne hnone hp]
  exact h

theorem marks_seenWith {path : List String} (before after : List Injection) (first : Brick)
    (h : (i.addTo b p (Injection.addAll before b p m)).Marks p.path path) (hp : p.path ≠ "trace") :
    (s.seenWith (before ++ i :: after) b p m first).Marks p.path path := by
  rw [seenWith, Injection.addAll_append]
  exact marks_visible (h.addAll after b) hp first

theorem traced_seenWith (h : m.Traced) (hp : p.path ≠ "trace") (is : List Injection) (b first : Brick) :
    (s.seenWith is b p m first).Traced := traced_visible (h.addAll hp is b) [] first

/-- An injected variable without a schema is found by its name. -/
theorem defines_seenWith_of_none (h : m.Traced) (hp : p.path ≠ "trace") {before after : List Injection}
    (hi : i.schema = none) (b first : Brick) :
    (s.seenWith (before ++ i :: after) b p m first).defines (i.boundName b) = true := by
  obtain ⟨x, path, hs, -⟩ := Reference.exists_segments_eq_cons (i.head?_boundName b)
  have hmarks : (s.seenWith (before ++ i :: after) b p m first).Marks p.path (x :: path) := by
    refine marks_seenWith before after first ?_ hp
    rw [Injection.addTo_of_none hi, hs]
    exact Scope.marks_write _ _ _ _ _ fun _ => rfl
  exact hmarks.defines (traced_seenWith h hp _ b first).distinct hs (by simp)

/-- An injected variable with a schema is found by its name if the name is one segment, and otherwise only if the name
is found without it. -/
theorem defines_seenWith_of_schema (h : m.Traced) (hp : p.path ≠ "trace") {before after : List Injection}
    {schema : Schema} (hi : i.schema = some schema) (hd : schema.describes = true) (b first : Brick) :
    (s.seenWith (before ++ i :: after) b p m first).defines (i.boundName b) = true ↔
      IsOneSegment (i.boundName b) ∨ (s.seenWith (before ++ after) b p m first).defines (i.boundName b) = true := by
  have hwith := (traced_seenWith (s := s) h hp (before ++ i :: after) b first).distinct
  have hwithout := (traced_seenWith (s := s) h hp (before ++ after) b first).distinct
  have hadd := Injection.addTo_of_schema hi hd b p (Injection.addAll before b p m)
  by_cases hone : IsOneSegment (i.boundName b)
  · have hmarks : (s.seenWith (before ++ i :: after) b p m first).Marks p.path [i.boundName b] := by
      refine marks_seenWith before after first ?_ hp
      rw [hadd]
      refine Scope.marks_write _ _ _ _ _ fun c => ?_
      rw [Node.existence_describe none schema hd]
      rfl
    exact iff_of_true (hmarks.defines hwith (hone.segments_eq (i.head?_boundName b)) (by simp)) (.inl hone)
  · -- the first segment is another variable, of which the binding says nothing
    obtain ⟨x, path, hs, hx, hname⟩ := Reference.exists_segments_eq_cons (i.head?_boundName b)
    have hne : x ≠ i.boundName b := fun he => hone (hname.1 he)
    have hbefore : (Injection.addAll before b p m).AlikeAt p.path x (i.addTo b p (Injection.addAll before b p m)) := by
      rw [hadd]
      exact Scope.alikeAt_write hne _ _ _ _ _
    have hseen : (s.seenWith (before ++ after) b p m first).AlikeAt p.path x
        (s.seenWith (before ++ i :: after) b p m first) := by
      rw [seenWith, seenWith, Injection.addAll_append, Injection.addAll_append]
      exact alikeAt_visible (hbefore.addAll after b) hp first
    rw [← hseen.defines_iff hwithout hwith hs hx]
    exact (or_iff_right hone).symm

/-! ## outputs -/

theorem mem_outputTrees_iff {bricks : List Brick} {k : String × Node} :
    k ∈ s.outputTrees p bricks ↔
      ∃ j maker, bricks[j]? = some maker ∧ s.outputTree? p maker j = some k.2 ∧ k.1 = (p.brick j).path := by
  simp only [outputTrees, List.mem_flatMap, List.mem_map, Option.mem_toList]
  constructor
  · rintro ⟨⟨maker, j⟩, hb, tree, ht, rfl⟩
    exact ⟨j, maker, List.mem_zipIdx_iff_getElem?.1 hb, ht, rfl⟩
  · rintro ⟨j, maker, hj, ht, hk⟩
    exact ⟨⟨maker, j⟩, List.mem_zipIdx_iff_getElem?.2 hj, k.2, ht, by rw [← hk]⟩

/-- Under the position of an earlier brick stands the tree of its output: no other brick of the level has that
position. -/
theorem source?_visible_output {bricks : List Brick} {j : Nat} {maker : Brick} {tree : Node}
    (hj : bricks[j]? = some maker) (ht : s.outputTree? p maker j = some tree) (inherited : Scope) (b : Brick) :
    (s.visible inherited p bricks b).source? (p.brick j).path = some tree := by
  have hmem : ((p.brick j).path, tree) ∈ s.outputTrees p bricks := mem_outputTrees_iff.2 ⟨j, maker, hj, ht, rfl⟩
  have honly : ∀ w, ((p.brick j).path, w) ∈ s.outputTrees p bricks → w = tree := by
    intro w hw
    obtain ⟨j', maker', hj', ht', hpath⟩ := mem_outputTrees_iff.1 hw
    obtain rfl := Position.brick_injective hpath
    rw [hj] at hj'
    cases hj'
    rw [ht] at ht'
    cases ht'
    rfl
  have huntraced : (s.untraced inherited p bricks).source? (p.brick j).path = some tree :=
    Table.get?_insertAll_of_mem hmem honly _
  rw [visible_eq]
  split
  · rw [Scope.source?_observe_of_ne (Position.path_brick_ne (by simp)), huntraced]
  · exact huntraced

/-- An output is found by its name if the name is one segment, and otherwise only if other sources know the name. -/
theorem defines_visible_output (h : m.Traced) {bricks : List Brick} {j : Nat} {maker : Brick} {name : String}
    (hj : bricks[j]? = some maker) (hname : maker.outputVariable? = some name)
    (hd : (s.bricks.output maker).schema.describes = true) (b : Brick) :
    (s.visible m p bricks b).defines name = true ↔
      IsOneSegment name ∨ ((s.visible m p bricks b).others (p.brick j).path).defines name = true := by
  have hsigil := Brick.head?_outputVariable hname
  obtain ⟨x, path, hs, hx, hfirst⟩ := Reference.exists_segments_eq_cons hsigil
  obtain ⟨tree, htree, hknown⟩ : ∃ tree, s.outputTree? p maker j = some tree ∧
      ((tree.lookup (segments name)).isSome = true ↔ IsOneSegment name) := by
    obtain ⟨e, f, hf, htree⟩ := Scope.exists_treeOf_eq hd (p.brick j).path [name]
      (if maker.isConditional then some .maybe else none)
    refine ⟨_, ?_, Node.isSome_lookup_write_empty e hf hsigil⟩
    rw [outputTree?, hname, Option.bind_some, htree]
  rw [Scope.defines_iff_others (traced_visible h bricks b).distinct (by simp [hs]) (p.brick j).path,
    source?_visible_output hj htree]
  exact or_congr_left hknown

/-! ## what is found -/

/-- The first brick of a nested pipeline is entered. -/
theorem enterBrick_mem_nestedSteps (s : Session) (p : Position) (depth : Nat) (inherited : Scope) (first : Brick)
    (rest : List Brick) :
    .enterBrick (p.brick 0) first (s.visible inherited p [] first) ∈
      s.nestedSteps p depth inherited (first :: rest) := by
  have hbrick : .enterBrick (p.brick 0) first (s.visible inherited p [] first) ∈ (s.brickSteps depth inherited
      ⟨s.outputTrees p []⟩ (brickSite s.settings.isDocument (p.brick 0) first)).events := by
    rw [brickSite_eq, brickSteps, brickScope_outputTrees]
    exact List.mem_cons_self
  have hbricks : .enterBrick (p.brick 0) first (s.visible inherited p [] first) ∈
      (s.bricksSteps depth inherited ⟨s.outputTrees p []⟩
        (brickSites s.settings.isDocument p ([] : List Brick).length (first :: rest))).events := by
    rw [bricksSteps_cons]
    exact Walk.mem_events_append hbrick
  rw [nestedSteps, List.cons_append]
  exact List.mem_cons_of_mem _ (List.mem_append_left _ hbricks)

/-- Which names are found in and around a brick at `p₀` of the level `l` that sees `scope`, and inside of which the
steps `inside` are taken. -/
structure FindsNames (s : Session) (l : OpenLevel) (p₀ : Position) (b : Brick) (scope : Scope) (inside : List Step) :
    Prop where
  /-- The output of an earlier brick of the level, by the brick. -/
  output {j : Nat} {maker : Brick} {name : String} : l.bricks[j]? = some maker → maker.outputVariable? = some name →
    (s.bricks.output maker).schema.describes = true →
    (scope.defines name = true ↔
      IsOneSegment name ∨ (scope.others (l.position.brick j).path).defines name = true)
  /-- A variable that is injected into a pipeline, by the first brick there. -/
  injected {rows : List Row} {p : Position} {property : String} {first : Brick} {rest : List Brick}
    {before after : List Injection} {i : Injection} :
    Holds s.settings.isDocument p₀ b rows (.value p (.plain property) (.pipeline (first :: rest))) → property ≠ "" →
    s.settings.injections b.id property = before ++ i :: after →
    .enterBrick ((p.nested ["__value__"]).brick 0) first
        (s.seenWith (before ++ i :: after) b (p.nested ["__value__"]) scope first) ∈ inside ∧
    (i.schema = none →
      (s.seenWith (before ++ i :: after) b (p.nested ["__value__"]) scope first).defines (i.boundName b) = true) ∧
    ∀ schema, i.schema = some schema → schema.describes = true →
      ((s.seenWith (before ++ i :: after) b (p.nested ["__value__"]) scope first).defines (i.boundName b) = true ↔
        IsOneSegment (i.boundName b) ∨
          (s.seenWith (before ++ after) b (p.nested ["__value__"]) scope first).defines (i.boundName b) = true)
  /-- The element of a list, in the body of a row. -/
  row {rows : List Row} {p : Position} {e : Element} {body : ConfigValue} :
    Holds s.settings.isDocument p₀ b rows (.row p e body) →
    .enterBody p true (Row.addTo ⟨p, e⟩ (scopeIn rows scope)) ∈ inside ∧
    (Row.addTo ⟨p, e⟩ (scopeIn rows scope)).defines (withSigil e.rowName) = true

end Session

/-- The element of a list is found by its name. -/
theorem Row.defines_addTo {m : Scope} (h : m.Distinct) (r : Row) :
    (r.addTo m).defines (withSigil r.list.rowName) = true := by
  obtain ⟨x, path, hs, -⟩ := Reference.exists_segments_eq_cons (Reference.head?_withSigil r.list.rowName)
  have hmarks : (r.addTo m).Marks r.position.path (x :: path) := by
    rw [addTo, Scope.setVariable, Scope.set, hs]
    exact Scope.marks_write _ _ _ _ _ fun _ => rfl
  exact hmarks.defines (h.write _ _ _ _) hs (by simp)

/-! ## runs -/

/-- **Which bound names are found.**  On a run with a report, the element of a list is found by its name in the body of
each row, and a variable that is injected without a schema by the first brick of its pipeline.  An output, and a
variable that is injected with a schema, is found by its name exactly if the name has no dot and no bracket and does not
end with a blank, or if the name would be found without the binding. -/
theorem Analyzer.bound_names_found {a : Analyzer} {pipeline : Pipeline} {r : Report}
    (h : (a.run pipeline).outcome = .ok r) :
    r = Report.ofSteps a.settings (a.steps pipeline) ∧
    ∀ (before after : List Step) (p₀ : Position) (b : Brick) (scope : Scope),
      a.steps pipeline = before ++ .enterBrick p₀ b scope :: after →
      ∃ (l : OpenLevel) (outer : List OpenLevel) (inside rest : List Step) (product : Option Product),
        openLevels before = l :: outer ∧ p₀ = l.position.brick l.bricks.length ∧
        after = inside ++ .leaveBrick p₀ product :: rest ∧
        (a.sessionFor pipeline).FindsNames l p₀ b scope inside := by
  obtain ⟨-, hcomplete, hr⟩ := Analyzer.run_eq_ok_iff.1 h
  refine ⟨hr, fun before after p₀ b scope hs => ?_⟩
  obtain ⟨depth, product, rest, hc, hafter⟩ := a.looksInto_walk pipeline hcomplete _ _ _ _ _ hs
  obtain ⟨l, outer, hl, hp, hscope⟩ := exists_level_of_enter hs
  have hinherited : l.inherited.Traced := traced_inherited hs hl
  have htraced : scope.Traced := by
    rw [hscope]
    exact Session.traced_visible hinherited l.bricks b
  refine ⟨l, outer, _, rest, product, hl, hp, hafter, ?_, ?_, ?_⟩
  · intro j maker name hj hname hd
    rw [hscope]
    exact Session.defines_visible_output hinherited hj hname hd b
  · intro rows p property first others is₁ is₂ i hh hproperty his
    have hq : (p.nested ["__value__"]).path ≠ "trace" := by
      have hbelow := hh.stands_below.1.nested ["__value__"]
      rw [hp] at hbelow
      exact Position.path_ne_of_below_brick hbelow (by simp)
    refine ⟨?_, fun hi => Session.defines_seenWith_of_none htraced hq hi b first,
      fun schema hi hd => Session.defines_seenWith_of_schema htraced hq hi hd b first⟩
    have hnested := (Session.nestedSteps_within hc hh).subset
      (Session.enterBrick_mem_nestedSteps _ (p.nested ["__value__"]) (depth + 1) _ first others)
    rw [hh.rows_of_plain, scopeIn_nil, Settings.inherited, if_neg hproperty, Settings.inject, his] at hnested
    exact hnested
  · intro rows p e body hh
    have hdistinct : (scopeIn rows scope).Distinct :=
      (changes_scopeIn (S := fun _ => True) (fun _ _ => trivial) scope).distinct htraced.distinct
    exact ⟨Session.enterBody_of_row hc hh, Row.defines_addTo hdistinct ⟨p, e⟩⟩

/-! ## a name with a dot -/

/-- A rule that injects the same name into two pipelines, into the first with a schema. -/
def namingAnalyzer : Analyzer :=
  { plainAnalyzer with settings := { constructs := [⟨"loop", [], [⟨"body", none, "item.key", some .permissive⟩,
      ⟨"last", none, "item.key", none⟩]⟩] } }

def namingPipeline : Pipeline :=
  [{ id := "read", outputKey := some "a.b" },
   { id := "loop", config := [("body", .pipeline [{ id := "print" }]), ("last", .pipeline [{ id := "send" }])] }]

theorem run_namingPipeline : (namingAnalyzer.run namingPipeline).outcome =
    .ok (Report.ofSteps namingAnalyzer.settings (namingAnalyzer.steps namingPipeline)) :=
  Analyzer.run_eq_ok_iff.2 ⟨⟨["read", "loop", "print", "send"], rfl⟩, rfl, rfl⟩

/-- The loop would find the output of the first brick only by another source, and the name is found in the pipeline that
gets it without a schema. -/
theorem bound_names_found_loop : ∃ r before after p₀ b scope l outer inside q first m,
    (namingAnalyzer.run namingPipeline).outcome = .ok r ∧
    namingAnalyzer.steps namingPipeline = before ++ .enterBrick p₀ b scope :: after ∧ b.id = "loop" ∧
    openLevels before = l :: outer ∧ inside <+: after ∧
    (namingAnalyzer.sessionFor namingPipeline).FindsNames l p₀ b scope inside ∧ ¬IsOneSegment "@a.b" ∧
    (scope.defines "@a.b" = true ↔ IsOneSegment "@a.b" ∨ (scope.others "pipeline.0").defines "@a.b" = true) ∧
    .enterBrick q first m ∈ inside ∧ first.id = "send" ∧ m.defines "@item.key" = true := by
  obtain ⟨l, outer, inside, rest, product, hl, -, hafter, hfinds⟩ :=
    (Analyzer.bound_names_found run_namingPipeline).2 ((namingAnalyzer.steps namingPipeline).take 3)
      ((namingAnalyzer.steps namingPipeline).drop 4) _ _ _ rfl
  have hlevels : openLevels ((namingAnalyzer.steps namingPipeline).take 3) =
      [⟨⟨"pipeline"⟩, _, namingPipeline.take 1⟩] := rfl
  obtain ⟨rfl, rfl⟩ : _ = l ∧ _ = outer := List.cons.inj (hlevels.symm.trans hl)
  have houtput := hfinds.output (j := 0) rfl (show _ = some "@a.b" by decide +kernel) (by decide +kernel)
  have hinjections : namingAnalyzer.settings.injections "loop" "last" =
      [] ++ ⟨"last", none, "item.key", none⟩ :: [] := rfl
  obtain ⟨hmem, hname, -⟩ := hfinds.injected (.config (List.mem_cons_of_mem _ List.mem_cons_self) (by decide))
    (by decide) hinjections
  have hdot : ¬IsOneSegment "@a.b" := by decide +kernel
  exact ⟨_, _, _, _, _, _, _, _, inside, _, _, _, run_namingPipeline, rfl, rfl, hl, ⟨_, hafter.symm⟩, hfinds, hdot,
    houtput, hmem, rfl, hname rfl⟩

/-- A run on which the second brick does not find the output of the first by its name, and the first brick of a nested
pipeline does not find the variable that is injected there with a schema. -/
theorem dotted_names_not_found : ∃ r before after p₀ b scope q inner,
    (namingAnalyzer.run namingPipeline).outcome = .ok r ∧
    namingAnalyzer.steps namingPipeline = before ++ .enterBrick p₀ b scope :: after ∧ p₀.path = "pipeline.1" ∧
    namingPipeline.head?.bind Brick.outputVariable? = some "@a.b" ∧ scope.defines "@a.b" = false ∧
    .enterBrick q { id := "print" } inner ∈ after ∧ inner.defines "@item.key" = false := by
  exact ⟨_, (namingAnalyzer.steps namingPipeline).take 3, (namingAnalyzer.steps namingPipeline).drop 4, _, _, _, _, _,
    run_namingPipeline, rfl, by decide +kernel, by decide +kernel, by decide +kernel,
    List.mem_cons_of_mem _ List.mem_cons_self, by decide +kernel⟩

end BrickScope

import BrickScope.Pipeline.Element

/-!
# The outline of a pipeline

The outline lists what a walk through a pipeline meets, in the order in which it is met, with the position of each
node: bricks with their guards before their configuration, the elements of document bricks with their configuration
before their children, nested pipelines and deferred bodies in place.  Where the tree breaks a rule the outline has a
violation, behind which nothing is met.

* `Pipeline.outline`: the outline of a whole pipeline.
-/

namespace BrickScope

/-- The brick that a nested pipeline belongs to, the property of its configuration that holds it, and the type of the
document element in between. -/
structure Owner where
  brick : Brick
  property : Option String
  elementType : Option String

mutual

/-- What is met inside a brick. -/
inductive Site where
  | literal (position : Position) (value : Scalar)
  | expression (position : Position) (e : Expression)
  | level (level : Level)
  | document (position : Position) (brick : Brick) (inside : List Site)
  | element (position : Position) (element : Element) (brick : Brick) (inside : List Site)
  /-- A deferred body; `row` is the list element that repeats it. -/
  | deferred (position : Position) (brick : Brick) (row : Option Element) (inside : List Site)
  | violation (v : Violation)

/-- A pipeline: the root, or one that a brick owns. -/
structure Level where
  position : Position
  owner : Option Owner
  bricks : List BrickSite

structure BrickSite where
  position : Position
  brick : Brick
  isDocument : Bool
  inside : List Site

end

/-- The member of a document brick that holds its elements. -/
def bodyKey : String := "body"

/-- A property that has a name. -/
def named (property : String) : Option String := if property.isEmpty then none else some property

mutual

/-- What is met at a configuration value. -/
def valueSites (documents : String → Bool) (p : Position) (owner : Owner) : ConfigValue → List Site
  | .literal value => [.literal p value]
  | .object members => memberSites documents p owner members
  | .array items => itemSites documents p owner 0 items
  | .expression e => [.expression p e]
  | .pipeline bricks =>
    let p := p.nested ["__value__"]
    [.level ⟨p, some owner, brickSites documents p 0 bricks⟩]
  | .deferred body =>
    let p := p.nested ["__value__"]
    [.deferred p owner.brick none (valueSites documents p ⟨owner.brick, none, none⟩ body)]
termination_by structural v => v

def memberSites (documents : String → Bool) (p : Position) (owner : Owner) : List (String × ConfigValue) → List Site
  | [] => []
  | (name, v) :: members =>
    valueSites documents (p.nested [name]) owner v ++ memberSites documents p owner members
termination_by structural v => v

def itemSites (documents : String → Bool) (p : Position) (owner : Owner) (index : Nat) : List ConfigValue → List Site
  | [] => []
  | v :: items =>
    valueSites documents (p.nested [toString index]) owner v ++ itemSites documents p owner (index + 1) items
termination_by structural v => v

/-- The bricks of a pipeline. -/
def brickSites (documents : String → Bool) (p : Position) (index : Nat) : List Brick → List BrickSite
  | [] => []
  | b :: bricks =>
    brickSite documents (p.nested [toString index]) b :: brickSites documents p (index + 1) bricks
termination_by structural v => v

def brickSite (documents : String → Bool) (p : Position) : Brick → BrickSite
  | b@⟨id, _, _, config, _, condition⟩ =>
    ⟨p, b, documents id, guardSites documents p b condition ++ configSites documents p b config⟩
termination_by structural v => v

def guardSites (documents : String → Bool) (p : Position) (brick : Brick) : Option ConfigValue → List Site
  | none => []
  | some v => valueSites documents (p.nested ["if"]) ⟨brick, some "if", none⟩ v
termination_by structural v => v

/-- The configuration of a brick; the body of a document brick is a document. -/
def configSites (documents : String → Bool) (p : Position) (brick : Brick) : List (String × ConfigValue) → List Site
  | [] => []
  | (name, v) :: members =>
    (if documents brick.id && name = bodyKey then [.document p brick (bodySites documents p brick v)]
    else valueSites documents (p.nested ["config", name]) ⟨brick, named name, none⟩ v) ++
      configSites documents p brick members
termination_by structural v => v

/-- The body of a document brick at `p`. -/
def bodySites (documents : String → Bool) (p : Position) (brick : Brick) : ConfigValue → List Site
  | .array items => elementSites documents (p.nested ["config", bodyKey]) brick 0 items
  | _ => [.violation ⟨p.nested ["config", bodyKey], .bodyIsList⟩]
termination_by structural v => v

def elementSites (documents : String → Bool) (p : Position) (brick : Brick) (index : Nat) :
    List ConfigValue → List Site
  | [] => []
  | v :: items =>
    elementSite documents (p.nested [toString index]) brick v :: elementSites documents p brick (index + 1) items
termination_by structural v => v

/-- An element of a document. -/
def elementSite (documents : String → Bool) (p : Position) (brick : Brick) : ConfigValue → Site
  | v@(.object members) =>
    match Element.ofConfig v with
    | .error rule => .violation ⟨p, rule⟩
    | .ok e => .element p e brick (if e.lacksRow then [.violation ⟨p, .rowIsDeferred⟩]
      else elementConfigSites documents p brick e members ++ childSites documents p brick members)
  | _ => .violation ⟨p, .elementIsObject⟩
termination_by structural v => v

/-- The configuration among the members of an element. -/
def elementConfigSites (documents : String → Bool) (p : Position) (brick : Brick) (e : Element) :
    List (String × ConfigValue) → List Site
  | [] => []
  | (name, v) :: members =>
    if name = "config" then settingSites documents p brick e v else elementConfigSites documents p brick e members
termination_by structural v => v

def settingSites (documents : String → Bool) (p : Position) (brick : Brick) (e : Element) : ConfigValue → List Site
  | .object config => elementValueSites documents p brick e config
  | _ => []
termination_by structural v => v

/-- The configuration of an element; that of a list holds the body of its rows. -/
def elementValueSites (documents : String → Bool) (p : Position) (brick : Brick) (e : Element) :
    List (String × ConfigValue) → List Site
  | [] => []
  | (name, v) :: members =>
    (if e.isList && name = Element.rowKey then rowSites documents (p.nested ["config", name]) brick e v
    else valueSites documents (p.nested ["config", name]) ⟨brick, named name, some e.type⟩ v) ++
      elementValueSites documents p brick e members
termination_by structural v => v

/-- The body of the rows of a list. -/
def rowSites (documents : String → Bool) (p : Position) (brick : Brick) (e : Element) : ConfigValue → List Site
  | .deferred body =>
    let p := p.nested ["__value__"]
    [.deferred p brick (some e) [elementSite documents p brick body]]
  | _ => []
termination_by structural v => v

/-- The children among the members of an element. -/
def childSites (documents : String → Bool) (p : Position) (brick : Brick) : List (String × ConfigValue) → List Site
  | [] => []
  | (name, v) :: members =>
    if name = "children" then childrenSites documents p brick v else childSites documents p brick members
termination_by structural v => v

def childrenSites (documents : String → Bool) (p : Position) (brick : Brick) : ConfigValue → List Site
  | .array items => elementSites documents (p.nested ["children"]) brick 0 items
  | _ => []
termination_by structural v => v

end

/-- The outline of a pipeline whose document bricks have the ids `documents`. -/
def Pipeline.outline (documents : String → Bool) (root : Position) (pipeline : Pipeline) : Level :=
  ⟨root, none, brickSites documents root 0 pipeline⟩

/-- The document of a brick, if it has one. -/
def Brick.documentSites (documents : String → Bool) (p : Position) (b : Brick) : List Site :=
  match Table.get? b.config bodyKey with
  | some body => bodySites documents p b body
  | none => []

/-- What is met in a deferred body: an element for a row, and otherwise any value. -/
def Brick.deferredSites (documents : String → Bool) (p : Position) (b : Brick) (row : Option Element)
    (body : ConfigValue) : List Site :=
  match row with
  | some _ => [elementSite documents p b body]
  | none => valueSites documents p ⟨b, none, none⟩ body

end BrickScope

import BrickScope.Pipeline.Outline
import BrickScope.Proofs.Pipeline.Position

/-!
# Where the levels of an outline stand

In the outline of a pipeline the bricks of a level stand at the position of the level with their index behind it, and
whatever is met inside a brick stands below the brick.

* `Pipeline.outline_placed`: all levels of an outline are placed so.
-/

namespace BrickScope

open Position (Below)

mutual

/-- The levels at a node stand below `q`, each with its bricks in their places. -/
def Site.Placed (q : Position) : Site → Prop
  | .level level => Below q level.position ∧ level.Placed
  | .document _ _ inside => SitesPlaced q inside
  | .element _ _ _ inside => SitesPlaced q inside
  | .deferred _ _ _ inside => SitesPlaced q inside
  | _ => True
termination_by structural site => site

def SitesPlaced (q : Position) : List Site → Prop
  | [] => True
  | site :: sites => site.Placed q ∧ SitesPlaced q sites
termination_by structural sites => sites

/-- The bricks of a level have its position and their index. -/
def Level.Placed : Level → Prop
  | ⟨p, _, bricks⟩ => BricksPlaced p 0 bricks
termination_by structural level => level

def BricksPlaced (p : Position) (index : Nat) : List BrickSite → Prop
  | [] => True
  | b :: bricks => b.Placed (p.brick index) ∧ BricksPlaced p (index + 1) bricks
termination_by structural bricks => bricks

def BrickSite.Placed (q : Position) : BrickSite → Prop
  | ⟨p, _, _, inside⟩ => p = q ∧ SitesPlaced q inside
termination_by structural b => b

end

theorem sitesPlaced_append {q : Position} {xs ys : List Site} (hx : SitesPlaced q xs) (hy : SitesPlaced q ys) :
    SitesPlaced q (xs ++ ys) := by
  induction xs with
  | nil => exact hy
  | cons x xs ih => exact ⟨hx.1, ih hx.2⟩

section

variable (documents : String → Bool)

mutual

theorem valueSites_placed {q p : Position} (h : Below q p) (owner : Owner) :
    ∀ v, SitesPlaced q (valueSites documents p owner v)
  | .literal _ => ⟨trivial, trivial⟩
  | .object members => memberSites_placed h owner members
  | .array items => itemSites_placed h owner 0 items
  | .expression _ => ⟨trivial, trivial⟩
  | .pipeline bricks => ⟨⟨h.nested _, brickSites_placed (p.nested ["__value__"]) 0 bricks⟩, trivial⟩
  | .deferred body => ⟨valueSites_placed (h.nested _) _ body, trivial⟩
termination_by structural v => v

theorem memberSites_placed {q p : Position} (h : Below q p) (owner : Owner) :
    ∀ members, SitesPlaced q (memberSites documents p owner members)
  | [] => trivial
  | (_, v) :: members =>
    sitesPlaced_append (valueSites_placed (h.nested _) owner v) (memberSites_placed h owner members)
termination_by structural v => v

theorem itemSites_placed {q p : Position} (h : Below q p) (owner : Owner) (index : Nat) :
    ∀ items, SitesPlaced q (itemSites documents p owner index items)
  | [] => trivial
  | v :: items =>
    sitesPlaced_append (valueSites_placed (h.nested _) owner v) (itemSites_placed h owner (index + 1) items)
termination_by structural v => v

theorem brickSites_placed (p : Position) (index : Nat) :
    ∀ bricks, BricksPlaced p index (brickSites documents p index bricks)
  | [] => trivial
  | b :: bricks => ⟨brickSite_placed (p.brick index) b, brickSites_placed p (index + 1) bricks⟩
termination_by structural v => v

theorem brickSite_placed (p : Position) : ∀ b, (brickSite documents p b).Placed p
  | ⟨_, _, _, config, _, condition⟩ =>
    ⟨rfl, sitesPlaced_append (guardSites_placed p _ condition) (configSites_placed p _ config)⟩
termination_by structural v => v

theorem guardSites_placed (p : Position) (brick : Brick) :
    ∀ condition, SitesPlaced p (guardSites documents p brick condition)
  | none => trivial
  | some v => valueSites_placed ⟨"if", [], by decide, rfl⟩ _ v
termination_by structural v => v

theorem configSites_placed (p : Position) (brick : Brick) :
    ∀ members, SitesPlaced p (configSites documents p brick members)
  | [] => trivial
  | (name, v) :: members => by
    refine sitesPlaced_append ?_ (configSites_placed p brick members)
    split
    · exact ⟨bodySites_placed p brick v, trivial⟩
    · exact valueSites_placed ⟨"config", [name], by decide, rfl⟩ _ v
termination_by structural v => v

theorem bodySites_placed (p : Position) (brick : Brick) :
    ∀ v, SitesPlaced p (bodySites documents p brick v)
  | .array items => elementSites_placed ⟨"config", [bodyKey], by decide, rfl⟩ brick 0 items
  | .literal _ | .object _ | .expression _ | .pipeline _ | .deferred _ => ⟨trivial, trivial⟩
termination_by structural v => v

theorem elementSites_placed {q p : Position} (h : Below q p) (brick : Brick) (index : Nat) :
    ∀ items, SitesPlaced q (elementSites documents p brick index items)
  | [] => trivial
  | v :: items => ⟨elementSite_placed (h.nested _) brick v, elementSites_placed h brick (index + 1) items⟩
termination_by structural v => v

theorem elementSite_placed {q p : Position} (h : Below q p) (brick : Brick) :
    ∀ v, (elementSite documents p brick v).Placed q
  | .object members => by
    rw [elementSite]
    split
    · exact trivial
    · rename_i e _
      unfold Site.Placed
      split
      · exact ⟨trivial, trivial⟩
      · exact sitesPlaced_append (elementConfigSites_placed h brick e members) (childSites_placed h brick members)
  | .array _ | .literal _ | .expression _ | .pipeline _ | .deferred _ => trivial
termination_by structural v => v

theorem elementConfigSites_placed {q p : Position} (h : Below q p) (brick : Brick) (e : Element) :
    ∀ members, SitesPlaced q (elementConfigSites documents p brick e members)
  | [] => trivial
  | (_, v) :: members => by
    rw [elementConfigSites]
    split
    · exact settingSites_placed h brick e v
    · exact elementConfigSites_placed h brick e members
termination_by structural v => v

theorem settingSites_placed {q p : Position} (h : Below q p) (brick : Brick) (e : Element) :
    ∀ v, SitesPlaced q (settingSites documents p brick e v)
  | .object config => elementValueSites_placed h brick e config
  | .array _ | .literal _ | .expression _ | .pipeline _ | .deferred _ => trivial
termination_by structural v => v

theorem elementValueSites_placed {q p : Position} (h : Below q p) (brick : Brick) (e : Element) :
    ∀ members, SitesPlaced q (elementValueSites documents p brick e members)
  | [] => trivial
  | (_, v) :: members => by
    rw [elementValueSites]
    refine sitesPlaced_append ?_ (elementValueSites_placed h brick e members)
    split
    · exact rowSites_placed (h.nested _) brick e v
    · exact valueSites_placed (h.nested _) _ v
termination_by structural v => v

theorem rowSites_placed {q p : Position} (h : Below q p) (brick : Brick) (e : Element) :
    ∀ v, SitesPlaced q (rowSites documents p brick e v)
  | .deferred body => ⟨⟨elementSite_placed (h.nested _) brick body, trivial⟩, trivial⟩
  | .object _ | .array _ | .literal _ | .expression _ | .pipeline _ => trivial
termination_by structural v => v

theorem childSites_placed {q p : Position} (h : Below q p) (brick : Brick) :
    ∀ members, SitesPlaced q (childSites documents p brick members)
  | [] => trivial
  | (_, v) :: members => by
    rw [childSites]
    split
    · exact childrenSites_placed h brick v
    · exact childSites_placed h brick members
termination_by structural v => v

theorem childrenSites_placed {q p : Position} (h : Below q p) (brick : Brick) :
    ∀ v, SitesPlaced q (childrenSites documents p brick v)
  | .array items => elementSites_placed (h.nested _) brick 0 items
  | .object _ | .literal _ | .expression _ | .pipeline _ | .deferred _ => trivial
termination_by structural v => v

end

end

theorem Pipeline.outline_placed (documents : String → Bool) (root : Position) (pipeline : Pipeline) :
    (Pipeline.outline documents root pipeline).Placed := brickSites_placed documents root 0 pipeline

end BrickScope

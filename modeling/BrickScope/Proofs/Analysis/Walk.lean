import BrickScope.Analysis.Steps
import Mathlib

/-!
# Walks that come to their end

A walk that meets no violation is put together from the walks at its nodes.  The walk of an analysis, if it comes to its
end, meets the same bricks and expressions in the same order as a plain walk through the outline, and it has not found
fault with any brick.

* `Walk.Visits`, `Walk.visits_iff_met`: the bricks that a walk visits;
* `Session.levelSteps_met`: what an analysis meets.
-/

namespace BrickScope

/-! ## what is met -/

/-- A node at which something happens on every kind of walk. -/
inductive Met where
  | brick (position : Position) (b : Brick)
  | expression (position : Position) (e : Expression)

def Visit.met? : Visit → Option Met
  | brick p b _ => some (.brick p b)
  | expression p e => some (.expression p e)
  | _ => none

def Step.met? : Step → Option Met
  | enterBrick p b _ => some (.brick p b)
  | check p e _ => some (.expression p e)
  | _ => none

namespace Walk

/-- The walk visits the brick. -/
def Visits (w : Walk Visit) (b : Brick) : Prop := ∃ p isDocument, Visit.brick p b isDocument ∈ w.events

theorem visits_append {w rest : Walk Visit} (h : w.Complete) {b : Brick} :
    (w ++ rest).Visits b ↔ w.Visits b ∨ rest.Visits b := by
  unfold Visits
  rw [events_append h]
  simp only [List.mem_append, exists_or]

theorem visits_cons {w : Walk Visit} {v : Visit} {b : Brick} :
    (w.cons v).Visits b ↔ v.brick? = some b ∨ w.Visits b := by
  unfold Visits
  rw [events_cons]
  simp only [List.mem_cons, exists_or]
  refine or_congr_left ⟨?_, ?_⟩
  · rintro ⟨p, d, rfl⟩
    rfl
  · intro h
    cases v with
    | brick p b' d =>
      cases h
      exact ⟨p, d, rfl⟩
    | _ => cases h

theorem visits_iff_met {w : Walk Visit} {b : Brick} :
    w.Visits b ↔ ∃ p, .brick p b ∈ w.events.filterMap Visit.met? := by
  simp only [List.mem_filterMap]
  constructor
  · rintro ⟨p, isDocument, h⟩
    exact ⟨p, _, h, rfl⟩
  · rintro ⟨p, visit, h, hm⟩
    cases visit with
    | brick p' b' isDocument =>
      cases hm
      exact ⟨p, isDocument, h⟩
    | expression => cases hm
    | _ => cases hm

end Walk

/-- All visits of a walk through an outline. -/
abbrev Level.allVisits (level : Level) : Walk Visit := level.visits fun _ => true

/-- If the steps of an analysis come to their end, so do the visits of a plain walk; both meet the same nodes, and the
bricks among them have their pipelines where they should. -/
def Meets (s : Session) (steps : Walk Step) (visits : Walk Visit) : Prop :=
  steps.Complete → visits.Complete ∧ visits.events.filterMap Visit.met? = steps.events.filterMap Step.met? ∧
    ∀ p b, .brick p b ∈ steps.events.filterMap Step.met? → s.violation? p b = none

section

variable {s : Session} {steps steps' : Walk Step} {visits visits' : Walk Visit}

theorem meets_empty : Meets s {} {} := fun _ => ⟨rfl, rfl, by simp⟩

theorem Meets.append (h : Meets s steps visits) (h' : Meets s steps' visits') :
    Meets s (steps ++ steps') (visits ++ visits') := by
  intro hc
  obtain ⟨hc₁, hc₂⟩ := Walk.complete_append.1 hc
  obtain ⟨hv₁, e₁, hb₁⟩ := h hc₁
  obtain ⟨hv₂, e₂, hb₂⟩ := h' hc₂
  refine ⟨Walk.complete_append.2 ⟨hv₁, hv₂⟩, ?_, ?_⟩
  · rw [Walk.events_append hv₁, Walk.events_append hc₁, List.filterMap_append, List.filterMap_append, e₁, e₂]
  · intro p b hb
    rw [Walk.events_append hc₁, List.filterMap_append, List.mem_append] at hb
    exact hb.elim (hb₁ p b) (hb₂ p b)

/-- A visit that meets nothing may come first. -/
theorem Meets.cons {v : Visit} (h : Meets s steps visits) (hv : v.met? = none) : Meets s steps (visits.cons v) := by
  intro hc
  obtain ⟨hc', e, hb⟩ := h hc
  exact ⟨hc', by rw [Walk.events_cons, List.filterMap_cons_none hv, e], hb⟩

theorem Meets.bracket {first last : Step} {v : Visit} (h : Meets s steps visits) (hf : v.met? = first.met?)
    (hl : last.met? = none) (hb : ∀ p b, first.met? = some (.brick p b) → s.violation? p b = none) :
    Meets s (.bracket first steps last) (visits.cons v) := by
  intro hc
  obtain ⟨hc', e, hb'⟩ := h hc
  rw [Walk.events_cons, Walk.events_bracket, List.cons_append]
  cases hm : first.met? with
  | none =>
    rw [List.filterMap_cons_none (hf.trans hm), List.filterMap_cons_none hm, List.filterMap_append,
      List.filterMap_cons_none hl, List.filterMap_nil, List.append_nil]
    exact ⟨hc', e, hb'⟩
  | some m =>
    rw [List.filterMap_cons_some (hf.trans hm), List.filterMap_cons_some hm, List.filterMap_append,
      List.filterMap_cons_none hl, List.filterMap_nil, List.append_nil]
    refine ⟨hc', by rw [e], fun p b hmem => ?_⟩
    rcases List.mem_cons.1 hmem with rfl | hmem
    · exact hb p b hm
    · exact hb' p b hmem

end

namespace Session

variable (s : Session)

mutual

theorem siteSteps_met (depth : Nat) (active : Scope) :
    ∀ site : Site, Meets s (s.siteSteps depth active site) (site.visits fun _ => true)
  | .literal _ _ => meets_empty.cons rfl
  | .expression _ _ => fun _ => ⟨rfl, rfl, by simp [siteSteps, Step.met?]⟩
  | .level level => levelSteps_met depth active level
  | .document _ _ inside => (sitesSteps_met depth active inside).cons rfl
  | .element _ _ _ inside => (sitesSteps_met depth active inside).cons rfl
  | .deferred p _ row inside =>
    (sitesSteps_met depth (bodyScope p row active) inside).bracket rfl rfl fun _ _ h => by cases h
  | .violation v => fun hc => absurd hc (by simp [siteSteps])

theorem sitesSteps_met (depth : Nat) (active : Scope) :
    ∀ sites : List Site, Meets s (s.sitesSteps depth active sites) (sitesVisits (fun _ => true) sites)
  | [] => meets_empty
  | site :: sites => by
    rw [sitesSteps, sitesVisits]
    exact (siteSteps_met depth active site).append (sitesSteps_met depth active sites)

theorem levelSteps_met (depth : Nat) (active : Scope) :
    ∀ level : Level, Meets s (s.levelSteps depth active level) level.allVisits
  | ⟨p, owner, bricks⟩ =>
    (bricksSteps_met (depth + 1) (s.levelScope p owner active) .empty bricks).bracket rfl rfl fun _ _ h => by cases h

theorem bricksSteps_met (depth : Nat) (inherited outputs : Scope) :
    ∀ bricks : List BrickSite,
      Meets s (s.bricksSteps depth inherited outputs bricks) (bricksVisits (fun _ => true) bricks)
  | [] => meets_empty
  | b :: bricks => by
    rw [bricksSteps, bricksVisits]
    exact (brickSteps_met depth inherited outputs b).append (bricksSteps_met depth inherited _ bricks)

theorem brickSteps_met (depth : Nat) (inherited outputs : Scope) :
    ∀ b : BrickSite, Meets s (s.brickSteps depth inherited outputs b) (b.visits fun _ => true)
  | ⟨p, b, _, inside⟩ => by
    rw [brickSteps]
    cases hv : s.violation? p b with
    | some v => exact fun hc => absurd hc (by simp)
    | none =>
      refine (sitesSteps_met depth (s.brickScope inherited outputs b) inside).bracket rfl rfl ?_
      intro p' b' h
      cases h
      exact hv

end

end Session

end BrickScope

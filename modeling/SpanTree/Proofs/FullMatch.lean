import SpanTree.Proofs.StandardEngine
import SpanTree.Proofs.Visiting

/-!
# Looking up by a pattern

A look-up puts the text of a pattern between `^(?:` and `)$` and hands the whole to an engine. **Of
a text that is a pattern by itself this makes the pattern that matches whole paths, and the look-up
visits the nodes whose whole path the pattern matches** (`visits_full_matches`). A comment that the
text leaves open takes the parenthesis and the dollar with it, and then the look-up is refused.

A text that is no pattern by itself is refused, except for one kind: where a parenthesis of the text
closes the group, and what stands before it is a pattern. Then what stands behind it is read outside
the group and outside of one or both anchors (`visits_unbalanced`).

All this follows from the usual meaning of patterns, whatever the engine.
-/

namespace SpanTree

theorem BeginsWithOperator.of_append {b u : List Char} (h : BeginsWithOperator (b ++ ')' :: u)) :
    BeginsWithOperator b := by
  obtain ⟨c, hc, hhead⟩ := h
  have hparen : c ≠ ')' := by
    rintro rfl
    exact absurd hc (by decide)
  exact ⟨c, hc, (Pattern.head?_append_paren hparen).1 hhead⟩

namespace Meaning.Usual

variable {meaning : Meaning} {m m' r : Reading} {pattern : String}

/-- The anchored text without its first anchor. -/
theorem pattern?_anchored (h : meaning.Usual) (pattern : String) :
    meaning.pattern? (Tree.anchored pattern) =
      (meaning.pattern? ('(' :: '?' :: ':' :: (pattern.toList ++ ')' :: ['$']))).map
        (.before .atStart) := by
  refine h.caret ?_
  rintro ⟨c, hc, hhead⟩
  cases hhead
  exact absurd hc (by decide)

/-- A text that is all of the group stands between the anchors. -/
theorem pattern?_anchored_closed (h : meaning.Usual) (hm : meaning.pattern? pattern.toList = some m)
    (hparen : meaning.pattern? (pattern.toList ++ [')']) = none) :
    meaning.pattern? (Tree.anchored pattern) = some [[.atStart, m.Matches, .atEnd]] := by
  rw [h.pattern?_anchored, h.dollar (h.closed hm hparen)]
  rfl

/-- A comment takes the end of the group. -/
theorem pattern?_anchored_comment (h : meaning.Usual)
    (hm : meaning.pattern? pattern.toList = some m)
    (hparen : meaning.pattern? (pattern.toList ++ [')']) = some m') :
    meaning.pattern? (Tree.anchored pattern) = none := by
  rw [h.pattern?_anchored, Option.map_eq_none_iff]
  refine Option.eq_none_iff_forall_ne_some.2 fun r hr => ?_
  obtain ⟨m, rest, hgroup, -⟩ := h.group hr
  rw [h.comment hm hparen] at hgroup
  cases hgroup

/-- If a text that is no pattern becomes one between the anchors, then a parenthesis of the text
closes the group, behind a pattern. -/
theorem pattern?_anchored_split (h : meaning.Usual) (hnone : meaning.pattern? pattern.toList = none)
    (hr : meaning.pattern? (Tree.anchored pattern) = some r) :
    ∃ a b m, pattern.toList = a ++ ')' :: b ∧ meaning.pattern? a = some m ∧
      (¬ BeginsWithOperator b → ∃ r', meaning.pattern? (b ++ ')' :: ['$']) = some r' ∧
        r = .before .atStart (.before m.Matches r')) := by
  rw [h.pattern?_anchored, Option.map_eq_some_iff] at hr
  obtain ⟨r, hr, rfl⟩ := hr
  obtain ⟨m, rest, hgroup, hrest⟩ := h.group hr
  obtain ⟨a, ha, hm⟩ := h.inside hgroup
  rcases List.append_eq_append_iff.1 ha with ⟨c, rfl, hc⟩ | ⟨c, hpattern, hc⟩
  · rcases c with _ | ⟨d, _ | ⟨d', c⟩⟩
    · rw [List.append_nil, hnone] at hm
      cases hm
    · cases hc
    · cases c <;> cases hc
  · cases c with
    | nil =>
      rw [List.append_nil] at hpattern
      rw [hpattern, hm] at hnone
      cases hnone
    | cons d b =>
      obtain ⟨rfl, rfl⟩ := List.cons.inj hc
      refine ⟨a, b, m, hpattern, hm, fun hop => ?_⟩
      obtain ⟨r', hr', rfl⟩ := hrest fun h => hop (BeginsWithOperator.of_append h)
      exact ⟨r', hr', rfl⟩

end Meaning.Usual

namespace Tree

/-- Nodes are visited in pre-order if their path is of that kind, until the visitor asks to stop. -/
def Visited {σ : Type} (t : Tree) (visit : σ → Bytes → σ × Bool) (P : List Char → Prop) (s s' : σ) :
    Prop :=
  ∃ wanted called goesOn, (∀ path, wanted path = true ↔ P path) ∧
    Calls (fun s n => visit s (n.text t.raw)) (t.wantedNodes wanted) s called (s', goesOn)

/-- What a look-up visits if its engine compiles the anchored text. -/
theorem visitMatches_eq {σ : Type} {engine : PatternEngine} {meaning : Meaning}
    (hfollows : engine.Follows meaning) (t : Tree) (pattern : String)
    (visit : σ → Bytes → σ × Bool) (s : σ) :
    (∃ reason, t.visitMatches engine pattern visit s = .error (.pattern reason)) ∨
      ∃ r s', meaning.pattern? (anchored pattern) = some r ∧
        t.visitMatches engine pattern visit s = .ok s' ∧
        t.Visited visit (fun path => ∃ i j, r.Matches path i j) s s' := by
  rw [visitMatches]
  cases hcompile : engine.compile (anchored pattern) with
  | error reason => exact .inl ⟨reason, rfl⟩
  | ok p =>
    obtain ⟨r, hr, hoccurs⟩ := hfollows _ _ hcompile
    obtain ⟨called, hcalls⟩ := Node.calls_walk (engine.occursIn p)
      (fun s n => visit s (n.text t.raw)) t.root [] s
    exact .inr ⟨r, _, hr, rfl, engine.occursIn p, called, _, hoccurs, hcalls⟩

/-- **A look-up visits the nodes whose whole path the pattern matches.** Of a text that is a pattern
by itself, the nodes with such a path are visited; the look-up is refused only where a comment takes
the end of the group, or where the engine refuses the anchored text though it is a pattern. A text
that is no pattern by itself is refused, unless a parenthesis in it closes the group behind a
pattern. -/
theorem visits_full_matches {σ : Type} (engine : PatternEngine) (meaning : Meaning)
    (husual : meaning.Usual) (hfollows : engine.Follows meaning) (t : Tree) (pattern : String)
    (visit : σ → Bytes → σ × Bool) (s : σ) :
    (∀ m, meaning.pattern? pattern.toList = some m →
      (∃ s', t.visitMatches engine pattern visit s = .ok s' ∧
        t.Visited visit (· ∈ m.language) s s') ∨
      (∃ reason, t.visitMatches engine pattern visit s = .error (.pattern reason)) ∧
        ((∃ m', meaning.pattern? (pattern.toList ++ [')']) = some m') ∨
          meaning.pattern? (anchored pattern) = some [[.atStart, m.Matches, .atEnd]])) ∧
    (meaning.pattern? pattern.toList = none →
      (∃ reason, t.visitMatches engine pattern visit s = .error (.pattern reason)) ∨
      ∃ a b m r s', pattern.toList = a ++ ')' :: b ∧ meaning.pattern? a = some m ∧
        meaning.pattern? (anchored pattern) = some r ∧
        (¬ BeginsWithOperator b → ∃ r', meaning.pattern? (b ++ ')' :: ['$']) = some r' ∧
          r = .before .atStart (.before m.Matches r')) ∧
        t.visitMatches engine pattern visit s = .ok s' ∧
        t.Visited visit (fun path => ∃ i j, r.Matches path i j) s s') := by
  have hvisits := visitMatches_eq hfollows t pattern visit s
  refine ⟨fun m hm => ?_, fun hnone => ?_⟩
  · cases hparen : meaning.pattern? (pattern.toList ++ [')']) with
    | none =>
      have hanchored := husual.pattern?_anchored_closed hm hparen
      rcases hvisits with hrefused | ⟨r, s', hr, hout, hvisited⟩
      · exact .inr ⟨hrefused, .inr hanchored⟩
      · rw [hanchored] at hr
        cases hr
        simp only [Reading.matches_between_anchors] at hvisited
        exact .inl ⟨s', hout, hvisited⟩
    | some m' =>
      have hanchored := husual.pattern?_anchored_comment hm hparen
      rcases hvisits with hrefused | ⟨r, s', hr, -⟩
      · exact .inr ⟨hrefused, .inl ⟨m', rfl⟩⟩
      · rw [hanchored] at hr
        cases hr
  · refine hvisits.imp id ?_
    rintro ⟨r, s', hr, hout, hvisited⟩
    obtain ⟨a, b, m, hsplit, hm, hbehind⟩ := husual.pattern?_anchored_split hnone hr
    exact ⟨a, b, m, r, s', hsplit, hm, hr, hbehind, hout, hvisited⟩

/-- A choice between two names below the root, on a tree with both and a third. -/
theorem visits_full_matches_choice :
    let t : Tree := ⟨⟨"$", 0, 3, [⟨"a", 0, 1, []⟩, ⟨"b", 1, 2, []⟩, ⟨"ab", 2, 3, []⟩]⟩,
      [49, 50, 51]⟩
    let visit : List Bytes → Bytes → List Bytes × Bool := fun texts text => (texts ++ [text], true)
    Pattern.meaning.Usual ∧ PatternEngine.standard.Follows Pattern.meaning ∧
      ∃ m, Pattern.meaning.pattern? "[$].(a|b)".toList = some m ∧
        t.Visited visit (· ∈ m.language) [] [[49], [50]] := by
  intro t visit
  refine ⟨Pattern.usual_meaning, Pattern.standard_follows, ?_⟩
  have hmeans : ∃ m, Pattern.meaning.pattern? "[$].(a|b)".toList = some m := ⟨_, rfl⟩
  obtain ⟨m, hm⟩ := hmeans
  have hvisits : t.visitMatches .standard "[$].(a|b)" visit [] = .ok [[49], [50]] := by
    decide +kernel
  rcases (visits_full_matches .standard Pattern.meaning Pattern.usual_meaning
    Pattern.standard_follows t "[$].(a|b)" visit []).1 m hm with
    ⟨s', hout, hvisited⟩ | ⟨⟨reason, hrefused⟩, -⟩
  · cases hvisits.symm.trans hout
    exact ⟨m, hm, hvisited⟩
  · cases hvisits.symm.trans hrefused

/-- A parenthesis closes the group of the anchors: what stands before it matches at the beginning of
a path, whatever follows. -/
theorem visits_unbalanced :
    let t : Tree := ⟨⟨"$", 0, 1, [⟨"a", 0, 1, []⟩]⟩, [120]⟩
    Pattern.meaning.Usual ∧ PatternEngine.standard.Follows Pattern.meaning ∧ t.Obtained ∧
      Pattern.meaning.pattern? "[$])|(?:z".toList = none ∧
      t.visitMatches .standard "[$])|(?:z" (fun texts text => (texts ++ [text], true)) [] =
        .ok [[120], [120]] := by
  intro t
  have hmade : t.Made :=
    .push (@Tree.Made.named "$" _ rfl) (.appendBytes (@Tree.Made.named "a" _ rfl) [120])
  refine ⟨Pattern.usual_meaning, Pattern.standard_follows, .made hmade, rfl, ?_⟩
  decide +kernel

end Tree

end SpanTree

import SpanTree.Proofs.Legibility
import SpanTree.Tree.Json

/-!
# The JSON view of trees of text

The JSON view shows bytes that are no UTF-8 as replacement characters, so it need not tell two trees
apart. A tree that is made of text has no such bytes in any node: **its view shows each node with
its very text, and two such trees have the same view exactly if they are alike**
(`Tree.json_exact`).

The view has the shape of the tree, so two views are compared node by node (`Node.toJson_eq_iff`),
which is what the dumps of alike trees come to as well.
-/

namespace SpanTree

namespace Utf8

variable {as bs : Bytes}

/-- UTF-8 is decoded as it is. -/
theorem IsText.decode? (h : IsText bs) : ∃ s, encode s = bs ∧ decode? bs = some s ∧
    decodeLossy bs = s := by
  obtain ⟨s, rfl⟩ := h
  exact ⟨s, rfl, decode?_encode s, decodeLossy_encode s⟩

theorem decodeLossy_inj (ha : IsText as) (hb : IsText bs) :
    decodeLossy as = decodeLossy bs ↔ as = bs := by
  obtain ⟨s, rfl⟩ := ha
  obtain ⟨s', rfl⟩ := hb
  rw [decodeLossy_encode, decodeLossy_encode]
  constructor
  · rintro rfl
    rfl
  · intro h
    have hdecode := congrArg Utf8.decode? h
    rwa [decode?_encode, decode?_encode, Option.some.injEq] at hdecode

end Utf8

namespace Node

mutual

/-- The value has an object for the node and for each below it, with the name and the text of the
node, not a byte of it changed. -/
def ShownBy (raw : Bytes) : Node → Json → Prop
  | ⟨name, start, stop, children⟩, v => ∃ items s,
      v = .object [("children", .array items), ("name", .string name), ("text", .string s)] ∧
        Utf8.encode s = raw.extract start stop ∧ ShownByAll raw children items

def ShownByAll (raw : Bytes) : List Node → List Json → Prop
  | [], [] => True
  | n :: ns, v :: vs => ShownBy raw n v ∧ ShownByAll raw ns vs
  | _, _ => False

end

variable {raw raw' : Bytes}

mutual

theorem shownBy_toJson : ∀ {n : Node}, n.Legible raw → n.ShownBy raw (n.toJson raw)
  | ⟨name, start, stop, children⟩, hn => by
    obtain ⟨htext, hbelow⟩ := hn
    obtain ⟨s, hencode, -, hlossy⟩ := htext.decode?
    exact ⟨toJsonAll raw children, s, by rw [toJson, hlossy], hencode,
      shownByAll_toJsonAll hbelow⟩

theorem shownByAll_toJsonAll : ∀ {ns : List Node}, LegibleAll raw ns →
    ShownByAll raw ns (toJsonAll raw ns)
  | [], _ => trivial
  | _ :: _, hns => ⟨shownBy_toJson hns.1, shownByAll_toJsonAll hns.2⟩

end

mutual

/-- **Legible nodes have the same view exactly if they are seen to be the same.** -/
theorem toJson_eq_iff : ∀ {n m : Node}, n.Legible raw → m.Legible raw' →
    (n.toJson raw = m.toJson raw' ↔ n.Similar (SameSight raw raw') m)
  | ⟨name, start, stop, children⟩, ⟨name', start', stop', children'⟩, hn, hm => by
    have htext := Utf8.decodeLossy_inj hn.1 hm.1
    have hbelow := toJsonAll_eq_iff hn.2 hm.2
    simp only [toJson, Similar, SameSight, text, Json.object.injEq, Json.array.injEq,
      Json.string.injEq, List.cons.injEq, Prod.mk.injEq, true_and, and_true, htext, hbelow]
    exact ⟨fun h => ⟨h.2, h.1⟩, fun h => ⟨h.2, h.1⟩⟩

theorem toJsonAll_eq_iff : ∀ {ns ms : List Node}, LegibleAll raw ns → LegibleAll raw' ms →
    (toJsonAll raw ns = toJsonAll raw' ms ↔ SimilarAll (SameSight raw raw') ns ms)
  | [], [], _, _ => by simp [toJsonAll, SimilarAll]
  | n :: ns, m :: ms, hns, hms => by
    rw [toJsonAll, toJsonAll, List.cons.injEq, toJson_eq_iff hns.1 hms.1,
      toJsonAll_eq_iff hns.2 hms.2, SimilarAll]
  | [], _ :: _, _, _ => by simp [toJsonAll, SimilarAll]
  | _ :: _, [], _, _ => by simp [toJsonAll, SimilarAll]

end

end Node

namespace Tree

variable {a b : Tree}

/-- **The JSON view is exact on trees of text.** The text of each node is UTF-8 and is decoded
without a replacement; each object has the very text of its node; and two such trees have the same
view exactly if they are alike. -/
theorem json_exact (ha : a.MadeOfText) (hb : b.MadeOfText) :
    (∀ x ∈ a.preorder, ∃ s, Utf8.encode s = x.2.text a.raw ∧
      Utf8.decode? (x.2.text a.raw) = some s ∧ Utf8.decodeLossy (x.2.text a.raw) = s) ∧
    a.root.ShownBy a.raw a.toJson ∧ (a.toJson = b.toJson ↔ a.alike b = true) := by
  have hlegible := ha.legible
  have hlegible' := hb.legible
  refine ⟨fun x hx => ?_, Node.shownBy_toJson hlegible.nodes, ?_⟩
  · exact ((Node.legible_iff_preorder 0).1 hlegible.nodes x hx).decode?
  · calc a.toJson = b.toJson ↔ a.root.Similar (Node.SameSight a.raw b.raw) b.root :=
          Node.toJson_eq_iff hlegible.nodes hlegible'.nodes
      _ ↔ a.labels = b.labels := labels_eq_iff.symm
      _ ↔ a.alike b = true := (alike_iff_labels hlegible.wellFormed hlegible'.wellFormed).symm

/-- A child over the second of two equal characters, and over the first as it is read back. -/
theorem json_exact_two_characters :
    let a : Tree := ⟨⟨"$", 0, 4, [⟨"c", 0, 2, []⟩]⟩, [0xC3, 0xA9, 0xC3, 0xA9]⟩
    let b : Tree := ⟨⟨"$", 0, 4, [⟨"c", 2, 4, []⟩]⟩, [0xC3, 0xA9, 0xC3, 0xA9]⟩
    a.MadeOfText ∧ b.MadeOfText ∧ a.toJson = b.toJson ∧
      ∀ x ∈ a.preorder, ∃ s, Utf8.encode s = x.2.text a.raw ∧
        Utf8.decode? (x.2.text a.raw) = some s ∧ Utf8.decodeLossy (x.2.text a.raw) = s := by
  intro a b
  have hroot : MadeOfText ⟨⟨"$", 0, 0, []⟩, []⟩ := @MadeOfText.named "$" _ rfl
  have hchild : MadeOfText ⟨⟨"c", 0, 2, []⟩, [0xC3, 0xA9]⟩ :=
    .appendText (@MadeOfText.named "c" _ rfl) "é"
  have hb : b.MadeOfText := .push (.appendText hroot "é") hchild
  have hwritten : a.MadeOfText := .appendText (.push hroot hchild) "é"
  have hbytes : a.WrittenAs
      [4, 0xC3, 0xA9, 0xC3, 0xA9, 10, 0x88, 0, 0x41, 0, 0x24, 4, 0x41, 0, 0x63, 2] :=
    ⟨[.header], by decide +kernel, by decide +kernel⟩
  have hopened : Reader.Reached (Bill.header ++
      [4, 0xC3, 0xA9, 0xC3, 0xA9, 10, 0x88, 0, 0x41, 0, 0x24, 4, 0x41, 0, 0x63, 2]) _ := .opened rfl
  have ha : a.MadeOfText := .read hwritten hbytes hopened (List.append_nil _).symm rfl
  obtain ⟨htexts, -, hiff⟩ := json_exact ha hb
  exact ⟨ha, hb, hiff.2 (by decide +kernel), htexts⟩

end Tree

end SpanTree

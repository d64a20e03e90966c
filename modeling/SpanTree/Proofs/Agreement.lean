import Mathlib.Control.Monad.Basic
import SpanTree.Proofs.History

/-!
# Names known to the writer and to the reader

A reader only ever learns names. So it can follow a stream no further than the names that the stream
knows are only added to: it agrees with the stream behind every frame **exactly if each dictionary
extends those before it**, and then it reads what was written (`Session.agrees_iff_growing`).

Where no names are forgotten this is always so. Where they are forgotten, nothing in the bytes says
so, and an index may come to stand for another name (`Session.reset_misleads`).

The main step is that a frame may be read with more names than it was written with, as long as these
are names that the writer knew behind it (`FrameForm.widen`): a name that was spelled out for a
second time is then not learned again.
-/

namespace SpanTree

open Bill
open SpanTree.Stream (Action)

/-! ## Between two dictionaries -/

namespace Dictionary

variable {d d' e last : Dictionary} {name : String} {i : Nat}

theorem Extends.antisymm (h : d'.Extends d) (h' : d.Extends d') : d = d' := by
  obtain ⟨capacity, names⟩ := d
  obtain ⟨capacity', names'⟩ := d'
  have hcapacity : capacity' = capacity := h.capacity_eq
  have hnames : names = names' :=
    h.names_prefix.eq_of_length (Nat.le_antisymm h.names_prefix.length_le h'.names_prefix.length_le)
  rw [hcapacity, hnames]

theorem Extends.name? (h : d'.Extends d) (hi : d.name? i = some name) :
    d'.name? i = some name := by
  obtain ⟨added, hadded⟩ := h.names_prefix
  have hlt := lt_size_of_name? hi
  unfold Dictionary.name? at *
  rw [← hadded, List.getElem?_append_left hlt, hi]

instance (d' d : Dictionary) : Decidable (d'.Extends d) :=
  decidable_of_iff (d'.capacity = d.capacity ∧ d.names <+: d'.names)
    ⟨fun h => ⟨h.1, h.2⟩, fun h => ⟨h.capacity_eq, h.names_prefix⟩⟩

/-- Each of the dictionaries extends those before it. -/
def Growing (ds : List Dictionary) : Prop := ds.Pairwise fun d d' => d'.Extends d

instance (ds : List Dictionary) : Decidable (Growing ds) :=
  inferInstanceAs (Decidable (ds.Pairwise _))

/-- From `d` names are added, by way of `e`, until those of `last` are known. -/
structure Between (d last e : Dictionary) : Prop where
  lower : e.Extends d
  upper : last.Extends e

/-- Learning a name leads on from `e` as it does from `d`, if both lead to the same names. -/
theorem Between.learn (h : d.Between last e) (hlast : last.Extends (d.learn name)) :
    (d.learn name).Between last (e.learn name) := by
  have hcapacity := h.lower.capacity_eq
  have hbelow := h.lower.names_prefix
  by_cases hkept : d.capacity ≤ d.size ∨ name ∈ d.names
  · have hd : d.learn name = d := hkept.elim learn_of_full learn_of_mem
    have he : e.learn name = e := by
      rcases hkept with hfull | hmem
      · exact learn_of_full (by rw [hcapacity]; exact Nat.le_trans hfull hbelow.length_le)
      · exact learn_of_mem (hbelow.subset hmem)
    rwa [hd, he]
  · rw [not_or, Nat.not_le] at hkept
    rw [learn_of_room hkept.2 hkept.1] at hlast ⊢
    -- The name comes next in `last`: either it comes next in `e` too, or there is nothing in `e`
    -- that is not in `d`.
    have hnext : d.names ++ [name] <+: e.names ∨ e.names <+: d.names := by
      rcases List.prefix_or_prefix_of_prefix hlast.names_prefix h.upper.names_prefix with hn | hn
      · exact .inl hn
      · rcases List.prefix_concat_iff.1 hn with heq | hn
        · exact .inl (heq ▸ List.prefix_rfl)
        · exact .inr hn
    rcases hnext with hn | hn
    · rw [learn_of_mem (hn.subset (by simp))]
      exact ⟨⟨hcapacity, hn⟩, h.upper⟩
    · obtain rfl : d = e := h.lower.antisymm ⟨hcapacity.symm, hn⟩
      rw [learn_of_room hkept.2 hkept.1]
      exact ⟨.refl _, hlast⟩

end Dictionary

/-! ## Reading with more names -/

namespace Bill

variable {levels cursor start stop rawSize : Nat} {d d' e last : Dictionary} {bs bytes : Bytes}
  {name : String} {n : Node} {ns : List Node} {root? : Option String} {t : Tree}

theorem NameForm.widen (h : NameForm d name bs d') (he : d.Between last e)
    (hlast : last.Extends d') : ∃ e', NameForm e name bs e' ∧ d'.Between last e' := by
  cases h with
  | index hb hname => exact ⟨e, .index hb (he.lower.name? hname), he⟩
  | full hlo hlo' hlen => exact ⟨_, .full hlo hlo' hlen, he.learn hlast⟩

theorem HeadForm.widen (h : HeadForm cursor d bs name start stop d') (he : d.Between last e)
    (hlast : last.Extends d') :
    ∃ e', HeadForm cursor e bs name start stop e' ∧ d'.Between last e' := by
  cases h with
  | mk hname hvalid hspan =>
    obtain ⟨e', hname', he'⟩ := hname.widen he hlast
    exact ⟨e', .mk hname' hvalid hspan, he'⟩

mutual

theorem NodeForm.widen : ∀ {levels cursor d bs n d'}, NodeForm levels cursor d bs n d' →
    ∀ {last e : Dictionary}, d.Between last e → last.Extends d' →
    ∃ e', NodeForm levels cursor e bs n e' ∧ d'.Between last e'
  | _, _, _, _, _, _, .leaf hhead, _, _, he, hlast => by
    obtain ⟨e', hhead', he'⟩ := hhead.widen he hlast
    exact ⟨e', .leaf hhead', he'⟩
  | _, _, _, _, _, _, .inner hhead hchildren hne hlo hlen, _, _, he, hlast => by
    obtain ⟨e', hhead', he'⟩ := hhead.widen he (hlast.trans hchildren.learns.extends)
    obtain ⟨e'', hchildren', he''⟩ := hchildren.widen he' hlast
    exact ⟨e'', .inner hhead' hchildren' hne hlo hlen, he''⟩

theorem NodesForm.widen : ∀ {levels cursor d bs ns d'}, NodesForm levels cursor d bs ns d' →
    ∀ {last e : Dictionary}, d.Between last e → last.Extends d' →
    ∃ e', NodesForm levels cursor e bs ns e' ∧ d'.Between last e'
  | _, _, _, _, _, _, .nil, _, e, he, _ => ⟨e, .nil, he⟩
  | _, _, _, _, _, _, .cons hnode hrest, _, _, he, hlast => by
    obtain ⟨e', hnode', he'⟩ := hnode.widen he (hlast.trans hrest.learns.extends)
    obtain ⟨e'', hrest', he''⟩ := hrest.widen he' hlast
    exact ⟨e'', .cons hnode' hrest', he''⟩

end

theorem BlockForm.widen (h : BlockForm d rawSize root? bs n d') (he : d.Between d' e) :
    BlockForm e rawSize root? bs n d' := by
  cases h with
  | written h =>
    obtain ⟨e', h', he'⟩ := h.widen he (.refl d')
    rw [he'.lower.antisymm he'.upper]
    exact .written h'
  | omitted h =>
    obtain ⟨e', h', he'⟩ := h.widen he (.refl d')
    rw [he'.lower.antisymm he'.upper]
    exact .omitted h'

end Bill

/-- A frame is also derived from more names, if all of them are known behind it. -/
theorem FrameForm.widen {d d' e : Dictionary} {root? : Option String} {bytes : Bytes} {t : Tree}
    (h : FrameForm d root? bytes t d') (he : d.Between d' e) : FrameForm e root? bytes t d' := by
  cases h with
  | mk hraw hend hblock hform hvalid => exact .mk hraw hend hblock (hform.widen he) hvalid

/-! ## Frames that a reader can follow -/

/-- The frames of the trees, each derived from the names known right behind the one before. -/
inductive Framed (root? : Option String) : Session → Bytes → List (Tree × Session) → Prop
  | nil {s : Session} : Framed root? s [] []
  | cons {s s' : Session} {bs cs : Bytes} {t : Tree} {us : List (Tree × Session)}
      (h : FrameForm s.stream.dict root? bs (t.readAs root?) s'.stream.dict)
      (hwritten : s'.written = s.written ++ bs) (hrest : Framed root? s' cs us) :
      Framed root? s (bs ++ cs) ((t, s') :: us)

namespace Session

variable {s s' : Session} {us : List (Tree × Session)} {root? : Option String} {body : List Action}
  {P : Tree → Prop} {mode : RootMode}

theorem Emits.framed (h : Emits (.ofName root?) s us s')
    (hus : ∀ u ∈ us, u.1.WellFormed ∧ u.1.NamedBelowRoot)
    (hgrowing : Dictionary.Growing (s.stream.dict :: us.map (·.2.stream.dict)))
    (hsize : s'.written.length ≤ terminator) :
    ∃ bytes, Framed root? s bytes us ∧ s'.written = s.written ++ bytes := by
  induction h with
  | nil hwritten => exact ⟨[], .nil, by rw [hwritten, List.append_nil]⟩
  | @cons s s₁ s' t us d block hd h hwritten _ ih =>
    obtain ⟨hfirst, hgrowing⟩ := List.pairwise_cons.1 hgrowing
    obtain ⟨cs, hframed, hwritten'⟩ := ih (fun u hu => hus u (.tail _ hu)) hgrowing hsize
    rw [hwritten, List.append_assoc] at hwritten'
    have hlen := congrArg List.length hwritten'
    rw [List.length_append, List.length_append] at hlen
    obtain ⟨ht, hnamed⟩ := hus _ (.head _)
    have hform := form_of_frame h ht hnamed (by omega)
    exact ⟨_, .cons (hform.widen ⟨hd, hfirst _ (.head _)⟩) hwritten hframed, hwritten'⟩

/-- As long as no names are forgotten, they are only added to. -/
theorem growing_history (h : ∀ action ∈ body, action.Grows P) :
    Dictionary.Growing (s.stream.dict :: (s.history body).map (·.2.stream.dict)) := by
  induction body generalizing s with
  | nil => exact .cons (by simp [history]) .nil
  | cons action body ih =>
    obtain ⟨us, bytes, hwrites, -⟩ := step_grows (s := s) (h action (.head _))
    have hstep := hwrites.frames.learns.extends
    have hrest := ih (s := s.step action) fun a ha => h a (.tail _ ha)
    obtain ⟨hall, hgrowing⟩ := List.pairwise_cons.1 hrest
    have hlater := fun d hd => (hall d hd).trans hstep
    cases action with
    | append t =>
      rw [history]
      split
      · exact .cons (List.forall_mem_cons.2 ⟨hstep, hlater⟩) hrest
      · exact .cons hlater hgrowing
    | take => exact .cons hlater hgrowing
    | header | omitRoots | terminator | resetDictionary => exact (h _ (.head _)).elim

/-- Where nothing is known at first, it is enough that names are added to from then on. -/
theorem Emits.growing (h : Emits mode s us s') (hs : s.stream.dict.names = [])
    (hgrowing : Dictionary.Growing (us.map (·.2.stream.dict))) :
    Dictionary.Growing (s.stream.dict :: us.map (·.2.stream.dict)) := by
  refine .cons ?_ hgrowing
  cases h with
  | nil => simp
  | @cons _ s₁ _ t us d _ hd h _ _ =>
    have hcapacity := ((ensures_encodeTree _ _ _).of_answers h).extends.capacity_eq.trans
      hd.capacity_eq.symm
    have hempty : ∀ d' : Dictionary, d'.Extends s₁.stream.dict → d'.Extends s.stream.dict :=
      fun d' hd' => ⟨hd'.capacity_eq.trans hcapacity, by rw [hs]; exact List.nil_prefix⟩
    exact List.forall_mem_cons.2
      ⟨hempty _ (.refl _), fun d' hd' => hempty d' ((List.pairwise_cons.1 hgrowing).1 d' hd')⟩

end Session

/-! ## Reading along -/

namespace Reader

variable {r : Reader} {s : Session} {us : List (Tree × Session)} {root? : Option String}
  {bytes rest : Bytes}

/-- Reading on gives these trees, and these are the names known after each of them. -/
def YieldsWith : Reader → List (Tree × Dictionary) → Prop
  | _, [] => True
  | r, (t, d) :: us =>
    r.next.result = .ok (some t) ∧ r.next.state.dict = d ∧ YieldsWith r.next.state us

instance decidableYieldsWith : (r : Reader) → (us : List (Tree × Dictionary)) →
    Decidable (r.YieldsWith us)
  | _, [] => .isTrue trivial
  | r, (t, d) :: us =>
    have := decidableYieldsWith r.next.state us
    inferInstanceAs (Decidable
      (r.next.result = .ok (some t) ∧ r.next.state.dict = d ∧ YieldsWith r.next.state us))

theorem yieldsWith_of_framed (h : Framed root? s bytes us) (hr : r.Consistent)
    (hfinished : r.isFinished = false) (hname : r.rootName = root?) (hdict : r.dict = s.stream.dict)
    (hrest : r.rest = bytes ++ rest) :
    r.YieldsWith (us.map fun u => (u.1.readAs root?, u.2.stream.dict)) := by
  induction h generalizing r with
  | nil => trivial
  | @cons s s' bs cs t us h _ _ ih =>
    rw [List.append_assoc] at hrest
    rw [← hdict, ← hname] at h
    obtain ⟨hresult, hstate⟩ := next_of_form hr hfinished h hrest
    have hpass := passes_learn hrest s'.stream.dict
    rw [hname] at hresult
    refine ⟨hresult, by rw [hstate], ?_⟩
    rw [hstate]
    exact ih (hpass.consistent hr) hfinished hname rfl (rest_skip hrest)

/-- A reader never forgets a name. -/
theorem YieldsWith.growing {us : List (Tree × Dictionary)} (h : r.YieldsWith us)
    (hr : r.Consistent) : Dictionary.Growing (r.dict :: us.map (·.2)) := by
  induction us generalizing r with
  | nil => exact .cons (by simp) .nil
  | cons u us ih =>
    obtain ⟨t, d⟩ := u
    obtain ⟨hresult, rfl, hrest⟩ := h
    obtain ⟨-, bs, hform, hpass⟩ := (answers_readTree_some hr).1 (next_eq.1 ⟨hresult, rfl⟩)
    have hstep := hform.learns.extends
    have hgrowing := ih hrest (hpass.consistent hr)
    have hall := (List.pairwise_cons.1 hgrowing).1
    exact .cons (List.forall_mem_cons.2 ⟨hstep, fun d hd => (hall d hd).trans hstep⟩) hgrowing

end Reader

/-! ## Agreement -/

namespace Session

variable {setup body : List Action} {root? : Option String}

/-- The frames of a run in which names are only added to. -/
theorem framed_of_runs (hsetup : Setup (.ofName root?) setup)
    (hbody : ∀ action ∈ body, action.Runs fun t => t.WellFormed ∧ t.NamedBelowRoot)
    (hgrowing : Dictionary.Growing (((fresh.run setup).history body).map (·.2.stream.dict)))
    (hsize : (fresh.run (setup ++ body)).written.length ≤ terminator) :
    ∃ bytes, Framed root? (fresh.run setup) bytes ((fresh.run setup).history body) ∧
      (fresh.run (setup ++ body)).written = header ++ bytes := by
  have hbegun := hsetup.begun
  have hnothing : (fresh.run setup).stream.dict.names = [] := by rw [hbegun.dict]; rfl
  obtain ⟨hemits, hus⟩ := run_emits hbody hbegun.mode
  rw [run_append] at hsize ⊢
  rw [← hbegun.written]
  exact hemits.framed hus (hemits.growing hnothing hgrowing) hsize

theorem yieldsWith_of_growing (hsetup : Setup (.ofName root?) setup)
    (hbody : ∀ action ∈ body, action.Runs fun t => t.WellFormed ∧ t.NamedBelowRoot)
    (hgrowing : Dictionary.Growing (((fresh.run setup).history body).map (·.2.stream.dict)))
    (hsize : (fresh.run (setup ++ body)).written.length ≤ terminator) :
    (Reader.opened (fresh.run (setup ++ body)).written root?).YieldsWith
      (((fresh.run setup).history body).map fun u => (u.1.readAs root?, u.2.stream.dict)) := by
  obtain ⟨bytes, hframed, hwritten⟩ := framed_of_runs hsetup hbody hgrowing hsize
  have hrest : (Reader.opened (fresh.run (setup ++ body)).written root?).rest = bytes ++ [] := by
    rw [Reader.opened, hwritten, List.drop_left, List.append_nil]
  exact Reader.yieldsWith_of_framed hframed (Reader.opened_consistent hwritten) rfl rfl
    hsetup.begun.dict.symm hrest

/-- A run that is begun has written its header first. -/
theorem exists_written_of_runs {mode : RootMode} (hsetup : Setup mode setup)
    {P : Tree → Prop} (hbody : ∀ action ∈ body, action.Runs P) :
    ∃ rest, (fresh.run (setup ++ body)).written = header ++ rest := by
  have hbegun := hsetup.begun
  obtain ⟨hemits, -⟩ := run_emits hbody hbegun.mode
  obtain ⟨rest, hrest⟩ := hemits.written_prefix
  rw [hbegun.written] at hrest
  rw [run_append]
  exact ⟨rest, hrest.symm⟩

/-- **A reader agrees with a stream exactly if names are only added to.** A stream is begun; then
trees are appended of which only the root may be nameless, bytes are taken, and names are forgotten,
in any order. Behind the frame of each accepted tree a reader knows the names that the stream knew
right after this tree, at the same indices, if and only if these dictionaries are growing from each
accepted tree to the later ones; and then it reads the trees that were accepted. They are growing
whenever no names were forgotten. -/
theorem agrees_iff_growing (hroot : ∀ name ∈ root?, Name.isNode name = true)
    (hsetup : Setup (.ofName root?) setup)
    (hbody : ∀ action ∈ body, action.Runs fun t => t.WellFormed ∧ t.NamedBelowRoot)
    (hsize : (fresh.run (setup ++ body)).written.length ≤ terminator) :
    let us := (fresh.run setup).history body
    let dicts := us.map (·.2.stream.dict)
    us.map (·.1) = (fresh.run (setup ++ body)).accepted ∧
    ∃ r, Command.openReader (fresh.run (setup ++ body)).written root? = .ok r ∧
      ((∃ vs, r.YieldsWith vs ∧ vs.map (·.2) = dicts) ↔ Dictionary.Growing dicts) ∧
      (Dictionary.Growing dicts →
        r.YieldsWith (us.map fun u => (u.1.readAs root?, u.2.stream.dict))) ∧
      (.resetDictionary ∉ body → Dictionary.Growing dicts) := by
  intro us dicts
  obtain ⟨rest, hdata⟩ := exists_written_of_runs hsetup hbody
  have hagrees := fun h => yieldsWith_of_growing hsetup hbody h hsize
  refine ⟨?_, _, openReader_eq_ok.2 ⟨⟨rest, hdata⟩, hroot, rfl⟩,
    ⟨?_, fun h => ⟨_, hagrees h, ?_⟩⟩, hagrees, ?_⟩
  · rw [run_append, accepted_run, hsetup.begun.accepted, List.nil_append]
  · rintro ⟨vs, hvs, hdicts⟩
    rw [← hdicts]
    exact (List.pairwise_cons.1 (hvs.growing (Reader.opened_consistent hdata))).2
  · rw [List.map_map]
    rfl
  · intro hkept
    have hgrows : ∀ action ∈ body, action.Grows fun t => t.WellFormed ∧ t.NamedBelowRoot :=
      fun action haction => (hbody action haction).grows fun heq => hkept (heq ▸ haction)
    exact (List.pairwise_cons.1 (growing_history hgrows)).2

/-- Names that are forgotten and then come back in the same order. -/
theorem agrees_iff_growing_relearned :
    let a : Tree := ⟨⟨"a", 0, 0, []⟩, []⟩
    let ab : Tree := ⟨⟨"a", 0, 0, [⟨"b", 0, 0, []⟩]⟩, []⟩
    let body := [Action.append a, .take, .resetDictionary, .append ab, .append ab]
    ∃ r, Command.openReader (fresh.run ([.header] ++ body)).written none = .ok r ∧
      r.YieldsWith [(a, ⟨64, ["a"]⟩), (ab, ⟨64, ["a", "b"]⟩), (ab, ⟨64, ["a", "b"]⟩)] := by
  intro a ab body
  have ha : a.WellFormed := @Tree.WellFormed.named a "a" rfl
  have hab : ab.WellFormed := ha.push (@Tree.WellFormed.named ⟨⟨"b", 0, 0, []⟩, []⟩ "b" rfl)
  have hbody : ∀ action ∈ body, action.Runs fun t => t.WellFormed ∧ t.NamedBelowRoot := by
    simp [body, Action.Runs, ha, hab, Tree.NamedBelowRoot, Node.AllNamesIn, Node.AllNames, a, ab]
  have hroot : ∀ name ∈ (none : Option String), Name.isNode name = true := by simp
  obtain ⟨-, r, hopen, -, hyields, -⟩ :=
    agrees_iff_growing hroot setup_header hbody (by decide +kernel)
  have hread : ((fresh.run [.header]).history body).map
      (fun u => (u.1.readAs none, u.2.stream.dict)) =
        [(a, ⟨64, ["a"]⟩), (ab, ⟨64, ["a", "b"]⟩), (ab, ⟨64, ["a", "b"]⟩)] := by decide +kernel
  rw [← hread]
  exact ⟨r, hopen, hyields (by decide +kernel)⟩

/-- **Names that are forgotten are not forgotten by the reader.** In the last of three frames the
index 0 is written for `b`, and is read as `a`. -/
theorem reset_misleads :
    let a : Tree := ⟨⟨"a", 0, 0, []⟩, []⟩
    let b : Tree := ⟨⟨"b", 0, 0, []⟩, []⟩
    let body := [Action.append a, .resetDictionary, .append b, .append b]
    let dicts := ((fresh.run [.header]).history body).map (·.2.stream.dict)
    (fresh.run ([.header] ++ body)).accepted = [a, b, b] ∧
      dicts = [⟨64, ["a"]⟩, ⟨64, ["b"]⟩, ⟨64, ["b"]⟩] ∧
      ∃ r, Command.openReader (fresh.run ([.header] ++ body)).written none = .ok r ∧
        r.YieldsWith [(a, ⟨64, ["a"]⟩), (b, ⟨64, ["a", "b"]⟩), (a, ⟨64, ["a", "b"]⟩)] := by
  refine ⟨by decide +kernel, by decide +kernel, _, rfl, ?_⟩
  decide +kernel

end Session

end SpanTree

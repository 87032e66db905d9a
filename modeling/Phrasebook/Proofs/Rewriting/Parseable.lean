import Phrasebook.Proofs.Rewriting.Readable
import Phrasebook.Proofs.RoundTrip.Headings
import Phrasebook.Proofs.RoundTrip.Preservation

/-!
# A tree that was cut down is read back

What is printed of a tree from which members were deleted is read without junk, and its units have
their names, attributes and select keys, if the tree is readable. A tree of which only blanks are
left is not.
-/

namespace Phrasebook

open Outline

/-- What is printed of sound entries is read back under their headings. -/
theorem Resource.headings_parse_print {Q : Pattern → Prop} {r : Resource}
    (h : ∀ e ∈ r.entries, e.Sound Q) : (Resource.parse (r.print false)).headings = r.headings := by
  have hplain (entries : List Entry) :
      (entries.map Entry.plain).filterMap Entry.heading? = entries.filterMap Entry.heading? := by
    rw [List.filterMap_map]
    exact List.filterMap_congr fun e _ => e.heading?_plain
  have hjunk (e : Entry) : (if !e.isJunk then e.heading? else none) = e.heading? := by
    cases e <;> rfl
  rw [Resource.headings, ← hplain, Resource.parse_print h, List.filterMap_map,
    List.filterMap_filter, Resource.headings]
  refine List.filterMap_congr fun e _ => ?_
  rw [Function.comp_apply, Entry.heading?_plain, Entry.heading?_dedent, hjunk]

/-- What is left of a tree that was read is sound if it is readable. -/
theorem Resource.PrunesTo.sound {source : String} {r : Resource}
    (h : (Resource.parse source).PrunesTo r) (hread : (ofResource r).Readable) :
    ∀ e ∈ r.entries, e.Sound fun _ => True := by
  obtain ⟨-, hentries⟩ := readable_mk.mp hread
  intro e' he'
  obtain ⟨e, he, hprunes⟩ := exists_of_sublistForall₂ h he'
  exact (Resource.sound_parse source e he).prune (fun _ hp => hp.sound) hprunes
    (hentries _ (List.mem_map_of_mem he'))

namespace Rewriter

variable {σ : Type}

/-- What a rewriter makes of a source, from the state it starts in. -/
def rewriteSource (w : Rewriter (StateM σ)) (state : σ) (source : String) : Resource :=
  (w.rewrite (Resource.parse source) state).1

/-- The rewriter that deletes the variables of patterns. -/
def dropVariables : Rewriter (StateM Unit) :=
  { keep with
    element := fun
      | .placeable (.variableRef _) => return none
      | element => return some element }

/-- Keeping everything is deleting nothing. -/
theorem deletes_keep : (keep : Rewriter (StateM σ)).Deletes := by
  have hkeep {α : Type} (a : α) : Spares (return some a : StateM σ (Option α)) a :=
    .pure fun _ hb => (Option.some.inj hb).symm
  exact ⟨hkeep, hkeep, hkeep, hkeep, hkeep, hkeep, fun _ => .pure rfl, hkeep, fun _ => .pure rfl,
    hkeep⟩

/-- Dropping variables is deleting. -/
theorem deletes_dropVariables : dropVariables.Deletes :=
  { deletes_keep with
    element := by
      rintro (value | e)
      · exact deletes_keep.element (.text value)
      · cases e with
        | variableRef name => exact .pure (by rintro _ ⟨⟩)
        | _ => exact deletes_keep.element _ }

/-- What is left of a source by a rewriter that only deletes is printed without a loss, if it is
readable: it is read back without junk, and its units have their names, attributes and select
keys. -/
theorem parse_print_rewriteSource {w : Rewriter (StateM σ)} (h : w.Deletes) (state : σ)
    (source : String) (hread : (ofResource (w.rewriteSource state source)).Readable) :
    (Resource.parse ((w.rewriteSource state source).print false)).junk = [] ∧
      (Resource.parse ((w.rewriteSource state source).print false)).headings =
        (w.rewriteSource state source).headings := by
  have hsound := (h.rewrite (Resource.parse source) state).sound hread
  exact ⟨Resource.junk_parse_print hsound, Resource.headings_parse_print hsound⟩

/-- Variables are deleted beside text, inside the default variant and as all of another one. -/
theorem parse_print_dropVariables :
    let r := dropVariables.rewriteSource ()
      "a = x\x7b $y \x7d z\n .b = \x7b $c ->\n *[d] \x7b $e \x7df\n [g] \x7b $h \x7d\n \x7d\n"
    dropVariables.Deletes ∧ (ofResource r).Readable ∧
      (Resource.parse (r.print false)).junk = [] ∧
        (Resource.parse (r.print false)).headings = r.headings :=
  ⟨deletes_dropVariables, by decide +kernel,
    parse_print_rewriteSource deletes_dropVariables () _ (by decide +kernel)⟩

/-- The space between two variables that are deleted is left as the value of the message, and what
is printed of the message is read as junk. -/
theorem parse_print_blank :
    let r := dropVariables.rewriteSource () "m = \x7b $x \x7d \x7b $y \x7d\n"
    dropVariables.Deletes ∧
      ¬((Resource.parse (r.print false)).junk = [] ∧
        (Resource.parse (r.print false)).headings = r.headings) :=
  ⟨deletes_dropVariables, by decide +kernel⟩

end Rewriter

end Phrasebook

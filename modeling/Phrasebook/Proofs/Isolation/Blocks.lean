import Phrasebook.Proofs.Isolation.Entry
import Phrasebook.Proofs.LineStart

/-!
# Blocks before a seam

The blocks of a source stay as they are when another source, which begins a unit, follows. An entry
that is broken at the end of the first source fails on the first line of the second, but recovery
goes back to the last line break before that place, which is the seam, and finds the unit there.
-/

namespace Phrasebook

open Text

/-! ## The last line of a source -/

/-- The last line of a text without its line end. Lines end at LF, at CR, and at CR LF. -/
def Text.lastLine (text : List Char) : List Char :=
  let backwards :=
    match text.reverse with
    | '\n' :: '\r' :: rest => rest
    | '\n' :: rest => rest
    | '\r' :: rest => rest
    | rest => rest
  (backwards.takeWhile fun c => !isBreak c).reverse

/-- The last line of a text is what is put after a line end and before another. -/
theorem Text.lastLine_append {front line e : List Char} (hfront : LeadsToLine front)
    (hline : ∀ c ∈ line, isBreak c = false) (hne : line ≠ []) (he : LineEnd e) :
    lastLine (front ++ (line ++ e)) = line := by
  obtain ⟨line, last, rfl⟩ := List.eq_nil_or_concat line |>.resolve_left hne
  have hlast : isBreak last = false := hline last (by simp)
  have hreturn : last ≠ '\r' := by
    rintro rfl
    contradiction
  have hstop : ∀ c ∈ front.reverse.head?, (!isBreak c) = false := by
    intro c hc
    rw [List.head?_reverse] at hc
    simp [hfront c hc]
  have hend : ((last :: (line.reverse ++ front.reverse)).takeWhile fun c => !isBreak c) =
      last :: line.reverse := by
    have hall : (last :: line.reverse).takeWhile (fun c => !isBreak c) = last :: line.reverse := by
      rw [List.takeWhile_eq_self_iff]
      intro c hc
      simpa using hline c (by simpa [or_comm] using hc)
    rw [← List.cons_append, takeWhile_append_of_head hstop, hall]
  cases he <;> simp [lastLine, hreturn, hend]

/-- The last line of a comment begins with its mark. -/
theorem CommentText.lastLine {level : CommentLevel} {lines : List String} {own : List Char}
    (h : CommentText level lines own) :
    ∃ front line, own = front ++ line ∧ LeadsToLine front ∧ line.head? = some '#' ∧
      ∀ c ∈ line, isBreak c = false := by
  have hline {line : String} {text : List Char} (h : CommentLine level line text) :
      text.head? = some '#' ∧ ∀ c ∈ text, isBreak c = false := by
    have hhead : level.sigil.toList.head? = some '#' := by cases level <;> rfl
    have hsigil : ∀ c ∈ level.sigil.toList, isBreak c = false := by
      intro c hc
      rw [Reader.eq_of_mem_sigil hc]
      rfl
    cases h with
    | bare => exact ⟨hhead, hsigil⟩
    | spaced hbreak =>
      refine ⟨by simp [hhead], fun c hc => ?_⟩
      rcases List.mem_append.mp hc with hc | hc
      · exact hsigil c hc
      rcases List.mem_cons.mp hc with rfl | hc
      · rfl
      · exact hbreak c hc
  induction h with
  | @last _ text h => exact ⟨[], text, rfl, leadsToLine_nil, hline h⟩
  | @cons _ _ text e _ h he _ ih =>
    obtain ⟨front, line, rfl, hfront, hrest⟩ := ih
    refine ⟨text ++ e ++ front, line, by simp, ?_, hrest⟩
    exact (leadsToLine_append_right text he.leadsToLine he.ne_nil).append hfront

/-! ## Entries and blocks that agree -/

/-- Two entries are the same up to the diagnostics of junk. -/
inductive Entry.Agrees : Entry → Entry → Prop
  | refl (e : Entry) : Agrees e e
  | junk (content : String) (d d' : Diagnostic) (span : Span) :
      Agrees (.junk ⟨content, d, span⟩) (.junk ⟨content, d', span⟩)

namespace Block

variable {u v : List Char}

/-- Two blocks agree if their entries do, and if both or neither of two comments meet what follows
them. -/
structure Agrees (b b' : Block) : Prop where
  entry : b.entry.Agrees b'.entry
  meets : ∀ c, b.entry = .comment c → b'.meetsNext = b.meetsNext

/-- What opens an entry starts one for recovery too. -/
theorem startsEntry_of_opensEntry (hv : OpensEntry v) : startsEntry v = true :=
  startsEntry_iff.mpr hv.exists_cons

/-- The search for an entry that came to the end of a source finds the entry behind the seam. -/
theorem nextEntry_append (hv : OpensEntry v) (hu : LeadsToLine u) (hne : u ≠ []) :
    nextEntry (u ++ v) = nextEntry u ++ v := by
  induction u with
  | nil => contradiction
  | cons c u ih =>
    rw [List.cons_append, nextEntry, nextEntry]
    by_cases hend : u = []
    · subst hend
      have hc : isBreak c = true := hu c rfl
      rw [List.nil_append, startsEntry_of_opensEntry hv, hc]
      rfl
    · have hstarts : startsEntry (u ++ v) = startsEntry u := by
        rw [startsEntry, startsEntry, List.head?_append_of_ne_nil u hend]
      rw [hstarts]
      split
      · rfl
      · exact ih (hu.of_suffix (List.suffix_cons c u)) hend

/-- Recovery from a fault short of the seam goes on as it does without the seam. -/
theorem resumption_append (read : List Char) {rest : List Char} :
    resumption read (rest ++ v) = resumption read rest ++ v := by
  unfold resumption
  dsimp only
  split
  · rfl
  · rw [List.append_assoc]

/-- The search for an entry, after a fault on the first line behind the seam, goes back to the
seam. -/
theorem nextEntry_resumption_ahead {x y : List Char} (hu : LeadsToLine u) (hne : u ≠ [])
    (hx : ∀ c ∈ x, isBreak c = false) :
    nextEntry (resumption (u ++ x) y) =
      if startsEntry (x ++ y) then x ++ y else nextEntry (x ++ y) := by
  obtain ⟨front, last, rfl⟩ := List.eq_nil_or_concat' u |>.resolve_left hne
  have hlast : isBreak last = true := hu last (by simp)
  rw [List.append_assoc, List.singleton_append, resumption_line front hlast hx y, nextEntry, hlast,
    Bool.true_and]

private theorem recover_append (hv : OpensEntry v) (hu : LeadsToLine u) {w : List Char}
    (hw : w <:+ u) (hne : w ≠ []) : recover (u ++ v) (w ++ v) = recover u w ++ v := by
  have hsuffix := resumption_before_suffix hw
  have hleft : resumption (before u w) w ≠ [] := by
    unfold resumption
    dsimp only
    split
    · exact hne
    · simp [hne]
  rw [recover, recover, Reader.before_append_right hw, resumption_append,
    nextEntry_append hv (hu.of_suffix hsuffix) hleft]

private theorem recover_ahead (hv : OpensEntry v) (hu : LeadsToLine u) (hne : u ≠ [])
    {y : List Char} (hy : Reader.Ahead v y) : recover (u ++ v) y = recover u [] ++ v := by
  obtain ⟨x, rfl, hx⟩ := hy
  have hread : before (u ++ (x ++ y)) y = u ++ x := before_eq (List.append_assoc ..).symm
  have hall : before u [] = u ++ [] := before_eq (by simp)
  rw [recover, recover, hread, hall, nextEntry_resumption_ahead hu hne hx,
    nextEntry_resumption_ahead hu hne (by simp), if_pos (startsEntry_of_opensEntry hv)]
  rfl

/-- What cannot be read before nothing cannot be read before an entry, and recovery ends alike. -/
theorem fails_append (hv : OpensEntry v) (offset : Nat) (hu : LeadsToLine u) (hne : u ≠ [])
    {failure : Failure} (h : Reader.entry offset u = .error failure) :
    ∃ failure', Reader.entry offset (u ++ v) = .error failure' ∧
      recover (u ++ v) failure'.rest = recover u failure.rest ++ v := by
  have halike := Reader.failAlike_entry hv offset hu hne
  have hsuffix := (Reader.contained_entry offset).suffix_of_error h
  rw [Reader.FailAlike, h] at halike
  obtain ⟨failure', huv, rfl | ⟨hend, hahead⟩⟩ := halike
  · refine ⟨_, huv, ?_⟩
    by_cases hend : failure.rest = []
    · rw [hend]
      exact recover_ahead hv hu hne Reader.ahead_self
    · exact recover_append hv hu hsuffix hend
  · refine ⟨failure', huv, ?_⟩
    rw [hend]
    exact recover_ahead hv hu hne hahead

/-- Junk at the start of a text is the same before an entry as before nothing. -/
theorem junk_append (hv : OpensEntry v) (offset : Nat) (hu : LeadsToLine u) (hne : u ≠ [])
    {failure : Failure} (h : Reader.entry offset u = .error failure) :
    ∃ content span d d', read offset u = (⟨.junk ⟨content, d, span⟩, false⟩, (read offset u).2) ∧
      read offset (u ++ v) = (⟨.junk ⟨content, d', span⟩, false⟩, (read offset u).2 ++ v) := by
  obtain ⟨failure', huv, hrecover⟩ := fails_append hv offset hu hne h
  have hrest := (Reader.contained_entry offset).suffix_of_error h
  have hsuffix : recover u failure.rest <:+ u :=
    (nextEntry_suffix _).trans (resumption_before_suffix hrest)
  have hcontent : before (u ++ v) (recover (u ++ v) failure'.rest) =
      before u (recover u failure.rest) := by
    rw [hrecover, Reader.before_append_right hsuffix]
  have hdrop : dropBlankLines (recover (u ++ v) failure'.rest) =
      dropBlankLines (recover u failure.rest) ++ v := by
    rw [hrecover]
    exact (hu.of_suffix hsuffix).dropBlankLines_append hv.isBlank_eq_false
  refine ⟨String.ofList (before u (recover u failure.rest)),
    ⟨offset, offset + byteLength (before u (recover u failure.rest))⟩,
    (junk offset u failure).1.diagnostic, (junk offset (u ++ v) failure').1.diagnostic, ?_, ?_⟩
  · rw [read, h]
    rfl
  · rw [read, read, huv, h]
    refine Prod.ext ?_ hdrop
    rw [← hcontent]
    rfl

/-- The block at the start of a text, and what follows it, are the same before a seam. -/
theorem read_append (hv : StartsUnit v) (offset : Nat) (hu : LeadsToLine u) (hne : u ≠ []) :
    (read offset (u ++ v)).2 = (read offset u).2 ++ v ∧
      (read offset u).1.entry.Agrees (read offset (u ++ v)).1.entry ∧
      ((read offset (u ++ v)).1.meetsNext = (read offset u).1.meetsNext ∨
        Reader.entry offset u = .ok ((read offset u).1.entry, [])) := by
  have hagree := Reader.agree_entry hv offset hu hne
  unfold Reader.Agree at hagree
  rcases hr : Reader.entry offset u with failure | ⟨entry, w⟩
  · obtain ⟨content, span, d, d', hread, hboth⟩ := junk_append hv.opensEntry offset hu hne hr
    rw [hread, hboth]
    exact ⟨rfl, .junk content d d' span, .inl rfl⟩
  · rw [hr] at hagree
    obtain ⟨huv, hw, -⟩ := hagree
    have hdrop := hw.dropBlankLines_append hv.isBlank_eq_false
    simp only [read, hr, huv, hdrop]
    refine ⟨trivial, .refl entry, ?_⟩
    by_cases hend : w = []
    · subst hend
      exact Or.inr rfl
    · left
      simp only [List.length_append, Nat.add_right_cancel_iff]
      by_cases hlen : (dropBlankLines w).length = w.length
      · have hleft : dropBlankLines w ≠ [] := by
          intro hnil
          rw [hnil] at hlen
          exact hend (List.length_eq_zero_iff.mp hlen.symm)
        obtain ⟨c, rest, hrest⟩ := List.exists_cons_of_ne_nil hleft
        simp [hrest]
      · simp [hlen]

/-- No comment ends at the seam if the last line before the seam is none. -/
private theorem no_comment_at_end {source : List Char} {offset : Nat} {c : Comment}
    (hline : (lastLine source).head? ≠ some '#') (hu : Terminated u) (hne : u ≠ [])
    (hat : AtLine source u) : Reader.entry offset u ≠ .ok (.comment c, []) := by
  intro hr
  rw [Reader.entry_apply] at hr
  split_ifs at hr
  · obtain ⟨c, mid, hrun, h⟩ := Reader.bind_eq_ok hr
    cases h
    obtain ⟨own, hown, hend⟩ := Reader.comment_ok hrun
    obtain ⟨front, line, rfl, hfront, hmark, hbreak⟩ := hown.lastLine
    have hleft : line ≠ [] := by
      rintro rfl
      contradiction
    rcases hend with ⟨rfl, -⟩ | ⟨e, he, rfl⟩
    · have hlast : line.getLast hleft = '\n' := hu _ (by
        rw [List.getLast?_append_of_ne_nil _ hleft, List.getLast?_eq_some_getLast hleft]
        rfl)
      have hfalse := hbreak _ (List.getLast_mem hleft)
      rw [hlast] at hfalse
      contradiction
    · obtain hnil | ⟨before, rfl, hbefore⟩ := hat
      · exact hne hnil
      · refine hline ?_
        have hlast := lastLine_append (hbefore.append hfront) hbreak hleft he
        simp only [List.append_assoc, List.append_nil] at hlast ⊢
        rw [hlast, hmark]
  · obtain ⟨t, mid, hrun, h⟩ := Reader.bind_eq_ok hr
    cases h
  · obtain ⟨m, mid, hrun, h⟩ := Reader.bind_eq_ok hr
    cases h

/-- Before a seam, the blocks agree one by one; behind it, they are those of what follows. -/
theorem all_append {source : List Char} (hv : StartsUnit v)
    (hline : (lastLine source).head? ≠ some '#') (offset : Nat) (hu : Terminated u)
    (hsource : u <:+ source) (hat : AtLine source u) :
    ∃ first, all offset (u ++ v) = first ++ all (offset + byteLength u) v ∧
      List.Forall₂ Agrees (all offset u) first := by
  induction hn : u.length using Nat.strong_induction_on generalizing offset u with
  | _ n ih =>
    by_cases hne : u = []
    · subst hne
      exact ⟨[], by simp [byteLength], .nil⟩
    have hboth : u ++ v ≠ [] := by simp [hne]
    have hsuffix := read_suffix offset u
    obtain ⟨hrest, hentry, hmeets⟩ := read_append hv offset hu.leadsToLine hne
    have hbefore : before (u ++ v) (read offset (u ++ v)).2 = before u (read offset u).2 := by
      rw [hrest, Reader.before_append_right hsuffix]
    have hlength : byteLength u = byteLength (before u (read offset u).2) +
        byteLength (read offset u).2 := by
      rw [← byteLength_append, before_append_self hsuffix]
    -- What is left of `u` still ends in a line feed and begins a line of the source.
    obtain ⟨first, hall, hagree⟩ := ih _ (hn ▸ read_length_lt offset hne)
      (offset + byteLength (before u (read offset u).2)) (hu.of_suffix hsuffix)
      (hsuffix.trans hsource) (read_atLine offset hsource) rfl
    refine ⟨(read offset (u ++ v)).1 :: first, ?_, ?_⟩
    · rw [all_of_ne_nil offset hboth, hbefore, hrest, hall, hlength, Nat.add_assoc]
      rfl
    · rw [all_of_ne_nil offset hne]
      -- A comment meets the seam only if it is the last line of the source, which is none.
      refine .cons ⟨hentry, fun c hc => hmeets.resolve_right fun hr => ?_⟩ hagree
      rw [hc] at hr
      exact no_comment_at_end hline hu hne hat hr

private theorem read_meetsNext_eq_false {offset : Nat} {text : List Char}
    (h : (read offset text).2 = []) : (read offset text).1.meetsNext = false := by
  cases hr : Reader.entry offset text with
  | error failure => simp only [read, hr]
  | ok result =>
    simp only [read, hr] at h ⊢
    simp [h]

/-- The last block of a text meets nothing. -/
theorem meetsNext_getLast_all (offset : Nat) (text : List Char) :
    ∀ b ∈ (all offset text).getLast?, b.meetsNext = false := by
  induction hn : text.length using Nat.strong_induction_on generalizing offset text with
  | _ n ih =>
    by_cases hne : text = []
    · subst hne
      rintro _ ⟨⟩
    rw [all_of_ne_nil offset hne]
    by_cases hend : (read offset text).2 = []
    · rw [hend, all_nil]
      rintro b ⟨⟩
      exact read_meetsNext_eq_false hend
    · have hrest := all_of_ne_nil (offset + byteLength (before text (read offset text).2)) hend
      intro b hb
      refine ih _ (hn ▸ read_length_lt offset hne)
        (offset + byteLength (before text (read offset text).2)) _ rfl b ?_
      rw [hrest] at hb ⊢
      exact hb

end Block

end Phrasebook

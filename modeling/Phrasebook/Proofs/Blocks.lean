import Phrasebook.Proofs.Reader.Progress

/-!
# Blocks of a source

A source is read block by block. Every block takes a character at least, whether its entry could be
read or became junk, so that the sequence of blocks is a recursion on what is left of the source.
A comment joins the unit below it, and nothing else.
-/

namespace Phrasebook.Reader

/-- What is read as an entry is no junk. -/
theorem entry_ne_junk {offset : Nat} {text rest : List Char} {e : Entry}
    (h : entry offset text = .ok (e, rest)) (j : Junk) : e ≠ .junk j := by
  rw [entry_apply] at h
  split_ifs at h <;> obtain ⟨_, _, -, hpure⟩ := bind_eq_ok h <;> cases hpure <;> rintro ⟨⟩

end Phrasebook.Reader

namespace Phrasebook.Block

variable {text : List Char}

/-- An entry may start with a letter, a hyphen or a number sign. -/
theorem startsEntry_iff :
    startsEntry text ↔ ∃ c rest, text = c :: rest ∧ (c.isAlpha ∨ c = '-' ∨ c = '#') := by
  rcases text with _ | ⟨c, rest⟩
  · simp [startsEntry]
  · simp [startsEntry, or_assoc]

/-- Skipping to the next entry leaves a suffix. -/
theorem nextEntry_suffix (text : List Char) : nextEntry text <:+ text := by
  fun_induction nextEntry text with
  | case1 => exact List.suffix_rfl
  | case2 c rest h => exact List.suffix_cons c rest
  | case3 c rest h ih => exact ih.trans (List.suffix_cons c rest)

/-- Skipping to the next entry ends at one or at the end of the text. -/
theorem nextEntry_eq_nil_or_startsEntry (text : List Char) :
    nextEntry text = [] ∨ startsEntry (nextEntry text) := by
  fun_induction nextEntry text with
  | case1 => exact .inl rfl
  | case2 c rest h => exact .inr (Bool.and_eq_true_iff.mp h).2
  | case3 c rest h ih => exact ih

/-- Skipping to the next entry skips at least one character. -/
theorem nextEntry_length_lt (hne : text ≠ []) : (nextEntry text).length < text.length := by
  obtain ⟨c, rest, rfl⟩ := List.exists_cons_of_ne_nil hne
  rw [nextEntry]
  split
  · exact Nat.lt_succ_self _
  · exact Nat.lt_succ_of_le (nextEntry_suffix rest).length_le

/-- Reading goes on with a suffix of the text after a failure. -/
theorem resumption_suffix (read rest : List Char) : resumption read rest <:+ read ++ rest := by
  unfold resumption
  dsimp only
  split
  · exact List.suffix_append read rest
  · obtain ⟨front, h⟩ := List.drop_suffix
      (read.length - (read.reverse.takeWhile fun c => !Text.isBreak c).reverse.length - 1) read
    exact ⟨front, by rw [← List.append_assoc, h]⟩

/-- The search for the next entry begins with the last line break before a problem. -/
theorem resumption_line (front : List Char) {b : Char} (hb : Text.isBreak b = true)
    {line : List Char} (hline : ∀ c ∈ line, Text.isBreak c = false) (rest : List Char) :
    resumption (front ++ b :: line) rest = b :: (line ++ rest) := by
  have hline : ((front ++ b :: line).reverse.takeWhile fun c => !Text.isBreak c) =
      line.reverse := by
    rw [List.reverse_append, List.reverse_cons, List.append_assoc]
    refine Text.takeWhile_append_stop (fun c hc => ?_) fun c hc => ?_
    · simpa using hline c (by simpa using hc)
    · cases hc
      simpa using hb
  unfold resumption
  rw [hline, List.reverse_reverse]
  have hlen : line.length ≠ (front ++ b :: line).length := by
    simp only [List.length_append, List.length_cons]
    omega
  have hdrop : (front ++ b :: line).length - line.length - 1 = front.length := by
    simp only [List.length_append, List.length_cons]
    omega
  rw [if_neg hlen, hdrop]
  simp

/-- On the first line of a block the search begins at the problem. -/
theorem resumption_firstLine {read : List Char} (h : ∀ c ∈ read, Text.isBreak c = false)
    (rest : List Char) : resumption read rest = rest := by
  have hline : (read.reverse.takeWhile fun c => !Text.isBreak c) = read.reverse :=
    List.takeWhile_eq_self_iff.mpr fun c hc => by simpa using h c (by simpa using hc)
  unfold resumption
  rw [hline, List.reverse_reverse]
  exact if_pos rfl

/-- The search for the next entry begins inside the block, or where reading failed. -/
theorem resumption_before_suffix {rest : List Char} (h : rest <:+ text) :
    resumption (Text.before text rest) rest <:+ text := by
  have hresume := resumption_suffix (Text.before text rest) rest
  rwa [Text.before_append_self h] at hresume

/-- The search goes on behind what stands within a line. -/
theorem nextEntry_line_append {x : List Char} (hx : ∀ c ∈ x, Text.isBreak c = false)
    (w : List Char) : nextEntry (x ++ w) = nextEntry w := by
  induction x with
  | nil => rfl
  | cons c x ih =>
    rw [List.cons_append, nextEntry, hx c List.mem_cons_self]
    exact ih fun d hd => hx d (List.mem_cons_of_mem c hd)

/-- Behind a line end, the next entry begins there or is still to come. -/
theorem nextEntry_lineEnd {e : List Char} (he : Text.LineEnd e) (w : List Char) :
    nextEntry (e ++ w) = if startsEntry w then w else nextEntry w := by
  cases he with
  | newline => rfl
  | «return» => rfl
  | both => rfl

/-- Where no entry follows, none follows later. -/
theorem nextEntry_eq_nil_of_suffix {w : List Char} (hw : w <:+ text) (h : nextEntry text = []) :
    nextEntry w = [] := by
  induction text with
  | nil =>
    rw [List.suffix_nil.mp hw]
    exact h
  | cons c text ih =>
    rcases List.suffix_cons_iff.mp hw with rfl | hw
    · exact h
    · refine ih hw ?_
      rw [nextEntry] at h
      split at h
      · next hstarts =>
        rw [h]
        rfl
      · exact h

/-- A text without line breaks, or one with a last line break. -/
theorem lastBreak (read : List Char) : (∀ c ∈ read, Text.isBreak c = false) ∨
    ∃ front b line, read = front ++ b :: line ∧ Text.isBreak b = true ∧
      ∀ c ∈ line, Text.isBreak c = false := by
  induction read with
  | nil => exact .inl (by rintro _ ⟨⟩)
  | cons c read ih =>
    rcases ih with hread | ⟨front, b, line, rfl, hb, hline⟩
    · cases hc : Text.isBreak c with
      | false => exact .inl (List.forall_mem_cons.mpr ⟨hc, hread⟩)
      | true => exact .inr ⟨[], c, read, rfl, hc, hread⟩
    · exact .inr ⟨c :: front, b, line, rfl, hb, hline⟩

/-- Where the search for the next entry ends after a fault. -/
def recover (text rest : List Char) : List Char :=
  nextEntry (resumption (Text.before text rest) rest)

/-- What follows junk is a suffix of the text. -/
theorem junk_suffix (offset : Nat) {failure : Failure} (h : failure.rest <:+ text) :
    (junk offset text failure).2 <:+ text :=
  (nextEntry_suffix _).trans (resumption_before_suffix h)

/-- Junk is the text from the start of its block to where reading goes on, and it is not empty. -/
theorem junk_spec (offset : Nat) {failure : Failure} (hne : text ≠ [])
    (h : failure.rest <:+ text) :
    ∃ own, own ≠ [] ∧ text = own ++ (junk offset text failure).2 ∧
      (junk offset text failure).1.content = String.ofList own ∧
      (junk offset text failure).1.span = ⟨offset, offset + Text.byteLength own⟩ := by
  have hwhole := Text.before_append_self (junk_suffix offset h)
  refine ⟨Text.before text (junk offset text failure).2, fun hnil => ?_, hwhole.symm, rfl, rfl⟩
  have hresume := resumption_before_suffix h
  rw [hnil, List.nil_append] at hwhole
  change nextEntry _ = text at hwhole
  by_cases hrest : resumption (Text.before text failure.rest) failure.rest = []
  · rw [hrest] at hwhole
    exact hne hwhole.symm
  · have hlt := nextEntry_length_lt hrest
    rw [hwhole] at hlt
    exact absurd hresume.length_le (by omega)

/-- What follows a block is a suffix of the text. -/
theorem read_suffix (offset : Nat) (text : List Char) : (read offset text).2 <:+ text := by
  have hcontained := Reader.contained_entry offset
  unfold read
  cases hr : Reader.entry offset text with
  | ok result =>
    obtain ⟨entry, after⟩ := result
    exact (Text.dropBlankLines_suffix after).trans (hcontained.suffix_of_ok hr)
  | error failure =>
    exact (Text.dropBlankLines_suffix _).trans
      (junk_suffix offset (hcontained.suffix_of_error hr))

/-- A block takes at least one character. -/
theorem read_length_lt (offset : Nat) (hne : text ≠ []) :
    (read offset text).2.length < text.length := by
  unfold read
  cases hr : Reader.entry offset text with
  | ok result =>
    obtain ⟨entry, after⟩ := result
    exact Nat.lt_of_le_of_lt (Text.dropBlankLines_suffix after).length_le
      ((Reader.below_entry offset text).ok hr)
  | error failure =>
    have hfailure := (Reader.contained_entry offset).suffix_of_error hr
    obtain ⟨own, hown, htext, -⟩ := junk_spec offset hne hfailure
    have hlt : (junk offset text failure).2.length < text.length := by
      have hlen := congrArg List.length htext
      have hpos := List.length_pos_iff.mpr hown
      rw [List.length_append] at hlen
      omega
    exact Nat.lt_of_le_of_lt (Text.dropBlankLines_suffix _).length_le hlt

private theorem readAll_eq_of_le : ∀ (m n offset : Nat) (text : List Char), text.length ≤ m →
    text.length ≤ n → readAll m offset text = readAll n offset text := by
  intro m
  induction m with
  | zero =>
    intro n offset text hm _
    obtain rfl : text = [] := List.length_eq_zero_iff.mp (by omega)
    cases n <;> rfl
  | succ m ih =>
    intro n offset text hm hn
    by_cases hne : text = []
    · subst hne
      cases n <;> rfl
    have hlt := read_length_lt offset hne
    obtain ⟨n, rfl⟩ : ∃ k, n = k + 1 := ⟨n - 1, by omega⟩
    simp only [readAll, List.isEmpty_iff, if_neg hne]
    rw [ih n _ _ (by omega) (by omega)]

/-- All blocks of a text that begins at `offset`. -/
def all (offset : Nat) (text : List Char) : List Block := readAll text.length offset text

/-- There are no blocks in no text. -/
@[simp] theorem all_nil (offset : Nat) : all offset [] = [] := rfl

/-- Reading goes on behind the first block. -/
theorem all_of_ne_nil (offset : Nat) (hne : text ≠ []) :
    all offset text = (read offset text).1 ::
      all (offset + Text.byteLength (Text.before text (read offset text).2))
        (read offset text).2 := by
  have hlt := read_length_lt offset hne
  obtain ⟨n, hn⟩ : ∃ n, text.length = n + 1 := ⟨text.length - 1, by omega⟩
  rw [all, hn, readAll, if_neg (by simpa using hne)]
  simp only [all]
  rw [readAll_eq_of_le n _ _ _ (by omega) le_rfl]

/-- Every block is read at the offset of its text. -/
theorem exists_read_of_mem_all {front : List Char} {b : Block}
    (h : b ∈ all (Text.byteLength front) text) :
    ∃ above below, text = above ++ below ∧ below ≠ [] ∧
      b = (read (Text.byteLength (front ++ above)) below).1 := by
  induction hn : text.length using Nat.strong_induction_on generalizing front text with
  | _ n ih =>
    by_cases hne : text = []
    · subst hne
      cases h
    rw [all_of_ne_nil _ hne] at h
    rcases List.mem_cons.mp h with rfl | h
    · exact ⟨[], text, rfl, hne, by rw [List.append_nil]⟩
    · have hwhole := Text.before_append_self (read_suffix (Text.byteLength front) text)
      rw [← Text.byteLength_append] at h
      -- Behind the first block everything is read at an offset that has moved by the text of that
      -- block.
      obtain ⟨above, below, hrest, hbelow, hb⟩ := ih _ (hn ▸ read_length_lt _ hne) h rfl
      refine ⟨Text.before text (read (Text.byteLength front) text).2 ++ above, below, ?_, hbelow,
        ?_⟩
      · rw [List.append_assoc, ← hrest, hwhole]
      · rwa [← List.append_assoc]

/-! ## Joining comments -/

/-- The entry that two blocks make if the first is a comment that joins the second. -/
def joined? (a b : Block) : Option Entry :=
  match a, b.entry with
  | ⟨.comment ⟨.entry, lines⟩, true⟩, .message m =>
    some (.message { m with comment := some ⟨.entry, lines⟩ })
  | ⟨.comment ⟨.entry, lines⟩, true⟩, .term t =>
    some (.term { t with comment := some ⟨.entry, lines⟩ })
  | _, _ => none

/-- Of two blocks in a row the first may be a comment that the second takes. -/
theorem joinComments_cons_cons (a b : Block) (rest : List Block) :
    joinComments (a :: b :: rest) =
      match joined? a b with
      | some e => e :: joinComments rest
      | none => a.entry :: joinComments (b :: rest) := by
  obtain ⟨entry, meets⟩ := a
  obtain ⟨entry', meets'⟩ := b
  rcases entry with _ | _ | ⟨level, lines⟩ | _
  · rfl
  · rfl
  · cases level <;> cases meets <;> cases entry' <;> rfl
  · rfl

/-- The last block stands for itself. -/
theorem joinComments_singleton (a : Block) : joinComments [a] = [a.entry] := by
  obtain ⟨entry, meets⟩ := a
  rcases entry with _ | _ | ⟨level, lines⟩ | _
  · rfl
  · rfl
  · cases level <;> cases meets <;> rfl
  · rfl

/-- A block joins the next only if it is a comment that meets it. -/
theorem joined?_eq_none {a : Block} (h : ∀ c, a.entry = .comment c → a.meetsNext = false)
    (b : Block) : joined? a b = none := by
  obtain ⟨entry, meets⟩ := a
  rcases entry with _ | _ | c | _
  · rfl
  · rfl
  · obtain rfl : meets = false := h c rfl
    obtain ⟨level, lines⟩ := c
    cases level <;> rfl
  · rfl

/-- A unit that a comment joins is a unit still. -/
theorem exists_of_joined? {a b : Block} {e : Entry} (h : joined? a b = some e) :
    ∃ lines, a.entry = .comment ⟨.entry, lines⟩ ∧
      ((∃ m, b.entry = .message m ∧ e = .message { m with comment := some ⟨.entry, lines⟩ }) ∨
        ∃ t, b.entry = .term t ∧ e = .term { t with comment := some ⟨.entry, lines⟩ }) := by
  unfold joined? at h
  split at h
  · next lines m hb => exact ⟨lines, rfl, .inl ⟨m, hb, (Option.some.inj h).symm⟩⟩
  · next lines t hb => exact ⟨lines, rfl, .inr ⟨t, hb, (Option.some.inj h).symm⟩⟩
  · cases h

/-- Comments are joined apart in two sequences of blocks if the first one ends in no comment that
meets the second. -/
theorem joinComments_append (rest : List Block) : ∀ first : List Block,
    (∀ b ∈ first.getLast?, ∀ c, b.entry = .comment c → b.meetsNext = false) →
      joinComments (first ++ rest) = joinComments first ++ joinComments rest
  | [], _ => rfl
  | [a], h => by
    have ha := h a rfl
    rw [joinComments_singleton]
    rcases rest with _ | ⟨b, rest⟩
    · exact joinComments_singleton a
    · rw [List.singleton_append, joinComments_cons_cons, joined?_eq_none ha]
      rfl
  | a :: b :: first, h => by
    rw [List.cons_append, List.cons_append, joinComments_cons_cons, joinComments_cons_cons]
    cases hjoined : joined? a b with
    | some e =>
      have hrest : joinComments (first ++ rest) = joinComments first ++ joinComments rest := by
        refine joinComments_append rest first fun c hc => h c ?_
        simp [List.getLast?_cons, Option.mem_def.mp hc]
      simp only [hrest, List.cons_append]
    | none =>
      have hrest := joinComments_append rest (b :: first) (by simpa using h)
      rw [List.cons_append] at hrest
      simp only [hrest, List.cons_append]

/-- Only a comment that meets the next block joins it. -/
theorem joinComments_cons {a : Block} (h : ∀ c, a.entry = .comment c → a.meetsNext = false)
    (rest : List Block) : joinComments (a :: rest) = a.entry :: joinComments rest := by
  rw [← List.singleton_append, joinComments_append rest [a], joinComments_singleton]
  · rfl
  · rintro _ ⟨⟩
    exact h

/-- Junk is a block of its own. -/
theorem exists_of_junk_mem {blocks : List Block} {j : Junk}
    (h : .junk j ∈ joinComments blocks) : ∃ b ∈ blocks, b.entry = .junk j := by
  fun_induction joinComments blocks with
  | case1 lines m meets rest ih =>
    obtain ⟨b, hb, hentry⟩ := ih (by simpa using h)
    exact ⟨b, List.mem_cons_of_mem _ (List.mem_cons_of_mem _ hb), hentry⟩
  | case2 lines t meets rest ih =>
    obtain ⟨b, hb, hentry⟩ := ih (by simpa using h)
    exact ⟨b, List.mem_cons_of_mem _ (List.mem_cons_of_mem _ hb), hentry⟩
  | case3 block rest _ _ ih =>
    rcases List.mem_cons.mp h with heq | h
    · exact ⟨block, List.mem_cons_self, heq.symm⟩
    · obtain ⟨b, hb, hentry⟩ := ih h
      exact ⟨b, List.mem_cons_of_mem _ hb, hentry⟩
  | case4 => cases h

end Phrasebook.Block

namespace Phrasebook.Resource

/-- The entries of a source are its blocks after blank lines, with comments joined to what follows
them. -/
theorem entries_parse (source : String) :
    (parse source).entries =
      Block.joinComments (Block.all
        (Text.byteLength (Text.before source.toList (Text.dropBlankLines source.toList)))
        (Text.dropBlankLines source.toList)) := rfl

open Reader (bind_ok bind_eq_ok)

/-- A source that is one definition up to its end holds one message. -/
theorem entries_parse_definition {source id : String} {value : Pattern}
    (h : Reader.definition source.toList = .ok ((id, some value), [])) :
    (parse source).entries =
      [.message ⟨id, some value, [], none, Reader.spanOf 0 source.toList⟩] := by
  generalize htext : source.toList = text at h
  -- A definition begins with a letter, so that no blank line is skipped before it.
  obtain ⟨c, rest, hcons, hc⟩ : ∃ c rest, text = c :: rest ∧ c.isAlpha := by
    obtain ⟨_, _, hname, -⟩ := bind_eq_ok h
    rcases text with _ | ⟨c, rest⟩
    · cases hname
    · refine ⟨c, rest, rfl, ?_⟩
      by_contra hc
      rw [Reader.identifier, if_neg hc] at hname
      cases hname
  have hbody : Reader.messageBody text = .ok ((id, some value, []), []) := by
    have hnone : Reader.attributes [] = .ok ([], []) :=
      Reader.loop_done Reader.advances_attributeStep rfl
    rw [Reader.messageBody, bind_ok h]
    simp only
    rw [bind_ok hnone]
    rfl
  have hmessage : Reader.message 0 text =
      .ok (⟨id, some value, [], none, Reader.spanOf 0 text⟩, []) := by
    rw [Reader.message_eq, Reader.bind_apply, Reader.withText, hbody]
    simp [Text.before]
  have hstart : Text.dropBlankLines text = text := by
    rw [hcons, Text.dropBlankLines_cons (Text.isBlank_eq_false_of_isAlpha hc)]
  have hhead (d : Char) (hd : d.isAlpha = false) : text.head? ≠ some d := by
    rw [hcons]
    rintro ⟨⟩
    rw [hc] at hd
    cases hd
  have hread : Block.read 0 text =
      (⟨.message ⟨id, some value, [], none, Reader.spanOf 0 text⟩, false⟩, []) := by
    rw [Block.read, Reader.entry_apply, if_neg (hhead _ rfl), if_neg (hhead _ rfl),
      bind_ok hmessage]
    rfl
  have hoffset : Text.byteLength (Text.before text text) = 0 := by
    simp [Text.before, Text.byteLength]
  have hne : text ≠ [] := by simp [hcons]
  rw [entries_parse, htext, hstart, hoffset, Block.all_of_ne_nil 0 hne, hread, Block.all_nil,
    Block.joinComments_singleton]

/-- A source that is one name and its pattern holds one message. -/
theorem entries_parse_value {source id : String} {text : List Char} {value : Pattern}
    (hsource : source.toList = id.toList ++ ' ' :: '=' :: text)
    (hid : ∀ rest, Reader.identifier (id.toList ++ ' ' :: rest) = .ok (id, ' ' :: rest))
    (hvalue : Reader.entryPattern text = .ok (some value, [])) :
    (parse source).entries =
      [.message ⟨id, some value, [], none, Reader.spanOf 0 source.toList⟩] := by
  refine entries_parse_definition ?_
  have hspace (rest : List Char) :
      Reader.skipSpaces (' ' :: '=' :: rest) = .ok (1, '=' :: rest) := rfl
  have hequals (rest : List Char) : Reader.expect '=' ('=' :: rest) = .ok ((), rest) := rfl
  rw [hsource, Reader.definition, bind_ok (hid _), bind_ok (hspace _), bind_ok (hequals _),
    bind_ok hvalue]
  rfl

end Phrasebook.Resource

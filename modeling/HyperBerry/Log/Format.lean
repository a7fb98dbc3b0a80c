import HyperBerry.Log.Number

/-!
# The format engine

A model of the brace-style formatter of `lib/log/log.h`.  A format string is a list of characters
that ends with the list or with a NUL; the null pointer is `none`.  `formatToSink` returns what is
written to the sink.

The second half is about formats as their authors mean them: literals, with their braces doubled,
and placeholders between them.
-/

namespace HyperBerry

namespace Log

/-! ## Values -/

/-- `WriteCString`, up to the NUL. -/
def writeCString : Option (List UInt8) → List UInt8
  | none => ascii "(null)"
  | some str => str.takeWhile (· ≠ 0)

/-- A value of an integral type. -/
inductive Scalar
  | bool (value : Bool)
  /-- `char`, which has no sign on this architecture. -/
  | char (value : UInt8)
  | signed (value : Int64)
  | unsigned (value : UInt64)

/-- `static_cast<int64_t>`. -/
def Scalar.toInt64 : Scalar → Int64
  | .bool value => if value then 1 else 0
  | .char value => Int64.ofNat value.toNat
  | .signed value => value
  | .unsigned value => value.toInt64

/-- An argument, by the type that selects how it is written. -/
inductive Arg
  | nullptr
  /-- `const char*` or `char*`: the address, and the bytes there unless it is null. -/
  | cstring (addr : UInt64) (str : List UInt8)
  | stringView (text : List UInt8)
  | pointer (addr : UInt64)
  | scalar (value : Scalar)
  /-- An enumeration, by the value of its underlying type. -/
  | enumeration (value : Scalar)

/-- `FormatSpec`. -/
inductive FormatSpec
  | default
  | hex
deriving DecidableEq

/-- `WriteValue` for an integral type. -/
def Scalar.writeValue : Scalar → Option (List UInt8)
  | .bool value => some (writeCString (some (ascii (if value then "true" else "false"))))
  | .char value => some [value]
  | .signed value => writeSignedDecimal value
  | .unsigned value => writeUnsignedDecimal value

/-- `WriteHexValue` for an integral type. -/
def Scalar.writeHexValue : Scalar → Option (List UInt8)
  | .bool value => writeUnsignedHex (if value then 1 else 0)
  | .char value => writeUnsignedHex value.toUInt64
  | .signed value => writeUnsignedHex (toUnsigned value.toInt)
  | .unsigned value => writeUnsignedHex value

/-- `WriteFormattedValue`. -/
def writeFormattedValue : FormatSpec → Arg → Option (List UInt8)
  | _, .nullptr => writeUnsignedHex 0
  | .default, .cstring addr str => some (writeCString (if addr = 0 then none else some str))
  | .hex, .cstring addr _ => writeUnsignedHex addr
  | _, .stringView text => some text
  | _, .pointer addr => writeUnsignedHex addr
  | .default, .scalar value => value.writeValue
  | .hex, .scalar value => value.writeHexValue
  | .default, .enumeration value => writeSignedDecimal value.toInt64
  | .hex, .enumeration value => value.writeHexValue

/-! ## The engine -/

/-- `FormatStep`, with the `FormatSpec` of a placeholder. -/
inductive FormatStep
  | finish
  | placeholder (spec : FormatSpec)
  | invalid
deriving DecidableEq

/-- What the scan has written, how it ended, and what is left of the format string. -/
structure Scan where
  written : List UInt8
  step : FormatStep
  rest : List UInt8
deriving DecidableEq

/-- One more character in front. -/
def Scan.write (c : UInt8) (scan : Scan) : Scan := { scan with written := c :: scan.written }

/-- The scan of `WriteUntilPlaceholder` over a format string that is not null. -/
def writeUntilPlaceholder : List UInt8 → Scan
  | [] => ⟨[], .finish, []⟩
  | c :: fmt =>
    if c = 0 then ⟨[], .finish, c :: fmt⟩
    else if c = ch '{' then
      match fmt with
      | [] => ⟨writeCString (some (ascii "[invalid format]")), .invalid, c :: fmt⟩
      | d :: rest =>
        if d = ch '{' then (writeUntilPlaceholder rest).write (ch '{')
        else if d = ch '}' then ⟨[], .placeholder .default, rest⟩
        else if d = ch ':' ∧ (rest[0]? = some (ch 'x') ∨ rest[0]? = some (ch 'X')) ∧
            rest[1]? = some (ch '}') then
          ⟨[], .placeholder .hex, rest.drop 2⟩
        else ⟨writeCString (some (ascii "[invalid format]")), .invalid, c :: fmt⟩
    else if c = ch '}' then
      match fmt with
      | [] => ⟨writeCString (some (ascii "[invalid format]")), .invalid, c :: fmt⟩
      | d :: rest =>
        if d = ch '}' then (writeUntilPlaceholder rest).write (ch '}')
        else ⟨writeCString (some (ascii "[invalid format]")), .invalid, c :: fmt⟩
    else (writeUntilPlaceholder fmt).write c

/-- The scan of a format string that may be null. -/
def scanFormat : Option (List UInt8) → Scan
  | none => ⟨writeCString (some (ascii "(null)")), .finish, []⟩
  | some fmt => writeUntilPlaceholder fmt

/-- `FormatToSink`. -/
def formatToSink (fmt : Option (List UInt8)) : List Arg → Option (List UInt8)
  | [] =>
    let scan := scanFormat fmt
    match scan.step with
    | .placeholder _ => some (scan.written ++ writeCString (some (ascii "[missing arg]")))
    | _ => some scan.written
  | value :: rest =>
    let scan := scanFormat fmt
    match scan.step with
    | .placeholder spec => do
      let text ← writeFormattedValue spec value
      let more ← formatToSink (some scan.rest) rest
      pure (scan.written ++ text ++ more)
    | .finish => some (scan.written ++ writeCString (some (ascii "[extra arg]")))
    | .invalid => some scan.written

/-! ## Formats as they are meant -/

/-- A literal in a format string: braces are doubled. -/
def escape (literal : List UInt8) : List UInt8 :=
  literal.flatMap fun c => if c = ch '{' ∨ c = ch '}' then [c, c] else [c]

/-- A placeholder. -/
inductive Placeholder
  | plain
  | hex
  /-- The same with a capital letter. -/
  | upperHex
deriving DecidableEq

/-- How a placeholder is written in a format string. -/
def Placeholder.text : Placeholder → List UInt8
  | .plain => ascii "\x7b\x7d"
  | .hex => ascii "\x7b:x\x7d"
  | .upperHex => ascii "\x7b:X\x7d"

/-- What a placeholder asks for. -/
def Placeholder.spec : Placeholder → FormatSpec
  | .plain => .default
  | .hex => .hex
  | .upperHex => .hex

/-- The rendering of an argument for a placeholder. -/
def rendering (placeholder : Placeholder) (arg : Arg) : List UInt8 :=
  (writeFormattedValue placeholder.spec arg).getD []

/-- Placeholders, each with the literal behind it. -/
abbrev Segments := List (Placeholder × List UInt8)

/-- The format string of a first literal and segments. -/
def encode (literal : List UInt8) (segments : Segments) : List UInt8 :=
  escape literal ++ segments.flatMap fun segment => segment.1.text ++ escape segment.2

/-- The text of a first literal and segments with their arguments. -/
def expand (literal : List UInt8) (filled : List ((Placeholder × List UInt8) × Arg)) : List UInt8 :=
  literal ++ filled.flatMap fun segment => rendering segment.1.1 segment.2 ++ segment.1.2

/-- The string starts with a brace that is neither doubled nor part of a placeholder. -/
def Malformed : List UInt8 → Prop
  | [] => False
  | c :: rest =>
    (c = ch '{' ∧ rest.head? ≠ some (ch '{') ∧
      ∀ placeholder : Placeholder, ¬ placeholder.text <+: c :: rest) ∨
    (c = ch '}' ∧ rest.head? ≠ some (ch '}'))

variable {literal rest fmt : List UInt8} {segments : Segments} {args : List Arg}

/-! ## Scanning a format -/

/-- The braces are two characters, and neither is the NUL. -/
lemma braces_ne : ch '{' ≠ 0 ∧ ch '}' ≠ 0 ∧ ch '}' ≠ ch '{' := by decide

/-- One more character of a literal. -/
lemma escape_cons (c : UInt8) (literal : List UInt8) :
    escape (c :: literal) = (if c = ch '{' ∨ c = ch '}' then [c, c] else [c]) ++ escape literal :=
  List.flatMap_cons

/-- The scan writes a character that is no brace. -/
lemma scan_cons {c : UInt8} (hnul : c ≠ 0) (hopen : c ≠ ch '{') (hclose : c ≠ ch '}') :
    writeUntilPlaceholder (c :: fmt) = (writeUntilPlaceholder fmt).write c := by
  cases fmt <;> simp only [writeUntilPlaceholder, if_neg hnul, if_neg hopen, if_neg hclose]

/-- The scan writes a literal and goes on behind it. -/
lemma scan_escape (hliteral : 0 ∉ literal) (rest : List UInt8) :
    writeUntilPlaceholder (escape literal ++ rest) =
      { writeUntilPlaceholder rest with
        written := literal ++ (writeUntilPlaceholder rest).written } := by
  obtain ⟨hopen, hclose, hne⟩ := braces_ne
  induction literal with
  | nil => rfl
  | cons c literal ih =>
    rw [List.mem_cons, not_or] at hliteral
    have hrest := ih hliteral.2
    rw [escape_cons]
    by_cases hc : c = ch '{'
    · subst hc
      rw [if_pos (.inl rfl), List.append_assoc, List.cons_append, List.singleton_append,
        writeUntilPlaceholder, if_neg hopen, if_pos rfl, if_pos rfl, hrest]
      rfl
    by_cases hd : c = ch '}'
    · subst hd
      rw [if_pos (.inr rfl), List.append_assoc, List.cons_append, List.singleton_append,
        writeUntilPlaceholder, if_neg hclose, if_neg hne, if_pos rfl, if_pos rfl, hrest]
      rfl
    · rw [if_neg (not_or.mpr ⟨hc, hd⟩), List.singleton_append, List.cons_append,
        scan_cons (Ne.symm hliteral.1) hc hd, hrest]
      rfl

/-- The scan stops behind a placeholder. -/
lemma scan_placeholder (placeholder : Placeholder) (rest : List UInt8) :
    writeUntilPlaceholder (placeholder.text ++ rest) =
      ⟨[], .placeholder placeholder.spec, rest⟩ := by
  cases placeholder <;> rfl

/-- The marker of a malformed brace is written whole. -/
lemma writeCString_invalid :
    writeCString (some (ascii "[invalid format]")) = ascii "[invalid format]" := by
  decide

/-- The scan stops at a malformed brace. -/
lemma scan_malformed (h : Malformed rest) :
    writeUntilPlaceholder rest = ⟨ascii "[invalid format]", .invalid, rest⟩ := by
  obtain ⟨hopen, hclose, hne⟩ := braces_ne
  match rest with
  | [] => exact absurd h id
  | [c] =>
    rcases h with ⟨rfl, -⟩ | ⟨rfl, -⟩
    · rw [writeUntilPlaceholder, if_neg hopen, if_pos rfl, writeCString_invalid]
    · rw [writeUntilPlaceholder, if_neg hclose, if_neg hne, if_pos rfl, writeCString_invalid]
  | c :: d :: rest =>
    rcases h with ⟨rfl, hdouble, hplaceholder⟩ | ⟨rfl, hdouble⟩
    · have hplain : d ≠ ch '}' := by
        rintro rfl
        exact hplaceholder .plain ⟨rest, rfl⟩
      have hhex : ¬ (d = ch ':' ∧ (rest[0]? = some (ch 'x') ∨ rest[0]? = some (ch 'X')) ∧
          rest[1]? = some (ch '}')) := by
        rintro ⟨rfl, hletter, hend⟩
        match rest with
        | [] => cases hend
        | [_] => cases hend
        | e :: f :: rest =>
          obtain rfl : f = ch '}' := Option.some.inj hend
          rcases hletter with he | he
          · obtain rfl : e = ch 'x' := Option.some.inj he
            exact hplaceholder .hex ⟨rest, rfl⟩
          · obtain rfl : e = ch 'X' := Option.some.inj he
            exact hplaceholder .upperHex ⟨rest, rfl⟩
      rw [writeUntilPlaceholder, if_neg hopen, if_pos rfl,
        if_neg fun hd => hdouble (congrArg some hd), if_neg hplain, if_neg hhex,
        writeCString_invalid]
    · rw [writeUntilPlaceholder, if_neg hclose, if_neg hne, if_pos rfl,
        if_neg fun hd => hdouble (congrArg some hd), writeCString_invalid]

/-! ## Formatting -/

/-- Every argument is rendered. -/
lemma writeFormattedValue_eq (placeholder : Placeholder) (arg : Arg) :
    writeFormattedValue placeholder.spec arg = some (rendering placeholder arg) := by
  have hsome (spec : FormatSpec) : (writeFormattedValue spec arg).isSome := by
    have hdecimal (v : UInt64) : (writeUnsignedDecimal v).isSome := by
      obtain ⟨s, hs, -⟩ := writeUnsignedDecimal_eq v
      rw [hs]
      rfl
    have hhex (v : UInt64) : (writeUnsignedHex v).isSome := by
      obtain ⟨s, hs, -⟩ := writeUnsignedHex_eq v
      rw [hs]
      rfl
    have hsigned (v : Int64) : (writeSignedDecimal v).isSome := by
      obtain ⟨s, -, hs, -⟩ := writeSignedDecimal_eq v
      rw [hs]
      rfl
    cases arg with
    | nullptr => cases spec <;> exact hhex 0
    | cstring addr str => cases spec with
      | default => rfl
      | hex => exact hhex addr
    | stringView text => cases spec <;> rfl
    | pointer addr => cases spec <;> exact hhex addr
    | scalar value =>
      cases spec <;> cases value <;> first | rfl | apply hdecimal | apply hhex | apply hsigned
    | enumeration value => cases spec with
      | default => exact hsigned _
      | hex => cases value <;> exact hhex _
  obtain ⟨text, htext⟩ := Option.isSome_iff_exists.mp (hsome placeholder.spec)
  rw [rendering, htext, Option.getD_some]

/-- A literal is written first. -/
lemma format_escape (hliteral : 0 ∉ literal) (rest : List UInt8) (args : List Arg) :
    formatToSink (some (escape literal ++ rest)) args =
      (formatToSink (some rest) args).map (literal ++ ·) := by
  have hscan := scan_escape hliteral rest
  cases args with
  | nil =>
    simp only [formatToSink, scanFormat, hscan]
    cases (writeUntilPlaceholder rest).step <;> simp [List.append_assoc]
  | cons value args =>
    simp only [formatToSink, scanFormat, hscan]
    cases (writeUntilPlaceholder rest).step with
    | finish => simp [List.append_assoc]
    | invalid => rfl
    | placeholder spec =>
      simp only [Option.bind_eq_bind, Option.map_bind]
      congr 1
      funext text
      cases formatToSink (some (writeUntilPlaceholder rest).rest) args <;>
        simp [List.append_assoc]

/-- A placeholder takes the next argument. -/
lemma format_placeholder (placeholder : Placeholder) (rest : List UInt8) (arg : Arg)
    (args : List Arg) :
    formatToSink (some (placeholder.text ++ rest)) (arg :: args) =
      (formatToSink (some rest) args).map (rendering placeholder arg ++ ·) := by
  rw [formatToSink, scanFormat, scan_placeholder]
  simp only [writeFormattedValue_eq, Option.bind_eq_bind, Option.bind_some, List.nil_append]
  cases formatToSink (some rest) args <;> rfl

/-- A format whose placeholders all have an argument is expanded, and what follows it is formatted
with the other arguments. -/
lemma format_encode (hliteral : 0 ∉ literal) (hsegments : ∀ segment ∈ segments, 0 ∉ segment.2)
    (hargs : segments.length ≤ args.length) (rest : List UInt8) :
    formatToSink (some (encode literal segments ++ rest)) args =
      (formatToSink (some rest) (args.drop segments.length)).map
        (expand literal (segments.zip args) ++ ·) := by
  induction segments generalizing literal args with
  | nil =>
    simpa [encode, expand] using format_escape hliteral rest args
  | cons segment segments ih =>
    cases args with
    | nil => cases hargs
    | cons arg args =>
      obtain ⟨placeholder, behind⟩ := segment
      obtain ⟨hbehind, hmore⟩ := List.forall_mem_cons.mp hsegments
      have hencode : encode literal ((placeholder, behind) :: segments) ++ rest =
          escape literal ++ (placeholder.text ++ (encode behind segments ++ rest)) := by
        simp only [encode, List.flatMap_cons, List.append_assoc]
      rw [hencode, format_escape hliteral, format_placeholder,
        ih hbehind hmore (Nat.le_of_succ_le_succ hargs), Option.map_map, Option.map_map,
        List.length_cons, List.drop_succ_cons, List.zip_cons_cons]
      congr 1
      funext text
      simp [expand, List.append_assoc]

/-- Segments up to the arguments given. -/
lemma encode_append (literal : List UInt8) (before behind : Segments) :
    encode literal (before ++ behind) = encode literal before ++ encode [] behind := by
  simp only [encode, List.flatMap_append, List.append_assoc, escape, List.flatMap_nil,
    List.nil_append]

/-- Every string without a NUL is a format up to its first malformed brace. -/
lemma exists_encode (hfmt : 0 ∉ fmt) :
    ∃ literal segments rest, 0 ∉ literal ∧ (∀ segment ∈ segments, 0 ∉ segment.2) ∧
      fmt = encode literal segments ++ rest ∧ (rest = [] ∨ Malformed rest) := by
  -- The induction is on the length: a placeholder takes several characters at once.
  induction hn : fmt.length using Nat.strong_induction_on generalizing fmt with
  | h n ih =>
    subst hn
    have hpush (c : UInt8) (more : List UInt8) (hc : c ≠ 0) (hmore : 0 ∉ more)
        (hlength : more.length < fmt.length)
        (htext : fmt = escape [c] ++ more) :
        ∃ literal segments rest, 0 ∉ literal ∧ (∀ segment ∈ segments, 0 ∉ segment.2) ∧
          fmt = encode literal segments ++ rest ∧ (rest = [] ∨ Malformed rest) := by
      obtain ⟨literal, segments, rest, hliteral, hsegments, hencode, hrest⟩ :=
        ih more.length hlength hmore rfl
      refine ⟨c :: literal, segments, rest, ?_, hsegments, ?_, hrest⟩
      · rw [List.mem_cons, not_or]
        exact ⟨Ne.symm hc, hliteral⟩
      · rw [htext, hencode]
        simp only [encode, escape, List.flatMap_cons, List.flatMap_nil, List.append_nil,
          List.append_assoc]
    by_cases hplaceholder : ∃ placeholder : Placeholder, placeholder.text <+: fmt
    · obtain ⟨placeholder, more, rfl⟩ := hplaceholder
      rw [List.mem_append, not_or] at hfmt
      have hlength : 0 < placeholder.text.length := by cases placeholder <;> decide
      obtain ⟨literal, segments, rest, hliteral, hsegments, hencode, hrest⟩ :=
        ih more.length (by rw [List.length_append]; omega) hfmt.2 rfl
      refine ⟨[], (placeholder, literal) :: segments, rest, List.not_mem_nil,
        List.forall_mem_cons.mpr ⟨hliteral, hsegments⟩, ?_, hrest⟩
      rw [hencode]
      simp only [encode, escape, List.flatMap_cons, List.flatMap_nil, List.nil_append,
        List.append_assoc]
    cases fmt with
    | nil => exact ⟨[], [], [], List.not_mem_nil, by simp, rfl, .inl rfl⟩
    | cons c fmt =>
      rw [List.mem_cons, not_or] at hfmt
      by_cases hbrace : c = ch '{' ∨ c = ch '}'
      · cases hdouble : decide (fmt.head? = some c) with
        | true =>
          obtain ⟨more, rfl⟩ := List.head?_eq_some_iff.mp (of_decide_eq_true hdouble)
          refine hpush c more (Ne.symm hfmt.1) (fun h => hfmt.2 (List.mem_cons_of_mem _ h))
            (by simp) ?_
          rw [escape_cons, if_pos hbrace]
          rfl
        | false =>
          have hdouble := of_decide_eq_false hdouble
          refine ⟨[], [], c :: fmt, List.not_mem_nil, by simp, rfl, .inr ?_⟩
          rcases hbrace with rfl | rfl
          · exact .inl ⟨rfl, hdouble, fun placeholder h => hplaceholder ⟨placeholder, h⟩⟩
          · exact .inr ⟨rfl, hdouble⟩
      · refine hpush c fmt (Ne.symm hfmt.1) hfmt.2 (by simp) ?_
        rw [escape_cons, if_neg hbrace]
        rfl

/-- What `FormatToSink` writes: the literals with the renderings between them. Where the arguments
run out the text ends with `[missing arg]`, where some are left over with `[extra arg]`, and at a
malformed brace with `[invalid format]`; and every format string without a NUL is covered. -/
theorem format_writes (args : List Arg) :
    (∀ literal segments, 0 ∉ literal → (∀ segment ∈ segments, 0 ∉ segment.2) →
      formatToSink (some (encode literal segments)) args =
          some (expand literal (segments.zip args) ++
            if args.length < segments.length then ascii "[missing arg]"
            else if segments.length < args.length then ascii "[extra arg]"
            else []) ∧
        ∀ rest, Malformed rest → segments.length ≤ args.length →
          formatToSink (some (encode literal segments ++ rest)) args =
            some (expand literal (segments.zip args) ++ ascii "[invalid format]")) ∧
    ∀ fmt, 0 ∉ fmt → ∃ literal segments rest,
      0 ∉ literal ∧ (∀ segment ∈ segments, 0 ∉ segment.2) ∧
      fmt = encode literal segments ++ rest ∧ (rest = [] ∨ Malformed rest) := by
  refine ⟨fun literal segments hliteral hsegments => ⟨?_, fun rest hrest hargs => ?_⟩,
    fun fmt => exists_encode⟩
  · by_cases hmissing : args.length < segments.length
    · -- The segments that have an argument are formatted, and the next one has none.
      rw [if_pos hmissing]
      obtain ⟨before, segment, behind, rfl, hlength⟩ :
          ∃ before segment behind, segments = before ++ segment :: behind ∧
            before.length = args.length := by
        refine ⟨segments.take args.length, segments[args.length], segments.drop (args.length + 1),
          ?_, List.length_take_of_le (Nat.le_of_lt hmissing)⟩
        rw [List.getElem_cons_drop, List.take_append_drop]
      have hbefore : ∀ segment ∈ before, 0 ∉ segment.2 := fun s hs =>
        hsegments s (List.mem_append_left _ hs)
      have hrest : encode [] (segment :: behind) =
          segment.1.text ++ encode segment.2 behind := by
        simp only [encode, escape, List.flatMap_cons, List.flatMap_nil, List.nil_append,
          List.append_assoc]
      have hzip : (before ++ segment :: behind).zip (args ++ []) =
          before.zip args ++ (segment :: behind).zip [] := List.zip_append hlength
      rw [List.append_nil, List.zip_nil_right, List.append_nil] at hzip
      rw [encode_append, hrest, format_encode hliteral hbefore (Nat.le_of_eq hlength), hlength,
        List.drop_length, formatToSink, scanFormat, scan_placeholder, hzip]
      rfl
    · rw [if_neg hmissing]
      have h := format_encode hliteral hsegments (Nat.le_of_not_lt hmissing) []
      rw [List.append_nil] at h
      rw [h]
      by_cases hextra : segments.length < args.length
      · obtain ⟨arg, more, hdrop⟩ : ∃ arg more, args.drop segments.length = arg :: more :=
          List.exists_cons_of_ne_nil (List.drop_eq_nil_iff.not.mpr (Nat.not_le.mpr hextra))
        rw [if_pos hextra, hdrop]
        rfl
      · rw [if_neg hextra, List.drop_eq_nil_of_le (Nat.le_of_not_lt hextra)]
        rfl
  · rw [format_encode hliteral hsegments hargs]
    cases args.drop segments.length <;> rw [formatToSink, scanFormat, scan_malformed hrest] <;> rfl

/-- A number between literal braces: the format is `{{{}}}` and the text `{42}`. -/
theorem format_writes_braces :
    formatToSink (some (ascii "\x7b\x7b\x7b\x7d\x7d\x7d")) [.scalar (.unsigned 42)] =
      some (ascii "\x7b42\x7d") :=
  ((format_writes [.scalar (.unsigned 42)]).1 [ch '{'] [(.plain, [ch '}'])] (by decide)
    (by decide)).1.trans (by decide)

end Log

end HyperBerry

import Lexis.Proofs.LossyDecoding
import Lexis.Proofs.ProgramOutcome

/-! What a dump tells of the tokens.
No text of a token has a space in it, and its first character tells a word, a number, a reserved
word in brackets and a symbol in quotes apart. So the tokens can be read back from their texts, with
one exception: the empty array has no quotes and is written like an identifier. A dump of the kinds
tells all places and kinds. -/
namespace Lexis

def Token.lexeme (t : Token) : Lexeme :=
  ⟨t.kind, t.payload⟩

theorem Byte.isDigit_ofUInt8 (b : UInt8) : (Char.ofUInt8 b).isDigit = Byte.isDigit b := by
  rw [Bool.eq_iff_iff, Char.isDigit_iff_toNat, Byte.isDigit, Bool.and_eq_true, decide_eq_true_eq,
    decide_eq_true_eq, UInt8.le_iff_toNat_le, UInt8.le_iff_toNat_le]
  exact Iff.of_eq rfl

namespace Kind

def all : List Kind :=
  [endOfFile, identifier, boolean, character, string, number, decimal] ++
    (Reserved.all.map reserved ++ Symbol.all.map symbol)

theorem mem_all (k : Kind) : k ∈ all := by
  cases k with
  | reserved r =>
    exact List.mem_append_right _ (List.mem_append_left _ (List.mem_map_of_mem r.mem_all))
  | symbol s =>
    exact List.mem_append_right _ (List.mem_append_right _ (List.mem_map_of_mem s.mem_all))
  | endOfFile | identifier | boolean | character | string | number | decimal =>
    exact List.mem_append_left _ (by decide)

theorem name_injective {k k' : Kind} (h : k.name = k'.name) : k = k' := by
  have hnodup : (all.map name).Nodup := by decide +kernel
  exact List.inj_on_of_nodup_map hnodup k.mem_all k'.mem_all h

theorem lineFeed_not_mem_name (k : Kind) : '\n' ∉ k.name.toList := by
  have hall : ∀ k ∈ all, '\n' ∉ k.name.toList := by decide
  exact hall k k.mem_all

end Kind

namespace Symbol

def ofName? (name : String) : Option Symbol :=
  all.find? fun s => (Kind.symbol s).name == name

theorem ofName?_name (s : Symbol) : ofName? (Kind.symbol s).name = some s := by
  cases h : ofName? (Kind.symbol s).name with
  | none =>
    have hnot := List.find?_eq_none.1 h s s.mem_all
    exact absurd (beq_self_eq_true _) hnot
  | some t =>
    rw [ofName?] at h
    have hname : (Kind.symbol t).name = (Kind.symbol s).name := by
      simpa using List.find?_some h
    rw [Kind.symbol.inj (Kind.name_injective hname)]

end Symbol

namespace Lexeme

def text (l : Lexeme) : String :=
  Token.text ⟨l.kind, l.payload, .start⟩

/-- The lexeme as it looks in a dump: the empty array is written as the identifier of its name. -/
def shown (l : Lexeme) : Lexeme :=
  if l.kind = .symbol .emptyArray then ⟨.identifier, .word "array"⟩ else l

def ofText (text : String) : Lexeme :=
  match text.toList with
  | [] => .endOfFile
  | first :: rest =>
    if first = '[' then .ofWord (String.ofList rest.dropLast)
    else if first = '\'' then (Symbol.ofName? text).elim .endOfFile .ofSymbol
    else if first.isDigit then .ofInteger (.ofInt (Nat.ofDigitChars 10 (first :: rest) 0))
    else .ofWord text

/-- The text of the lexeme can be told from the text behind it and can be read. -/
structure Legible (l : Lexeme) : Prop where
  text_ne_nil : l.text.toList ≠ []
  space_not_mem : ' ' ∉ l.text.toList
  text_shown : l.shown.text = l.text
  ofText_text : ofText l.text = l.shown

theorem ofText_of_cons {text : String} {first : Char} {rest : List Char}
    (h : text.toList = first :: rest) :
    ofText text =
      if first = '[' then .ofWord (String.ofList rest.dropLast)
      else if first = '\'' then (Symbol.ofName? text).elim .endOfFile .ofSymbol
      else if first.isDigit then .ofInteger (.ofInt (Nat.ofDigitChars 10 (first :: rest) 0))
      else .ofWord text := by
  rw [ofText, h]

private theorem legible_of_cons {l : Lexeme} {first : Char} {rest : List Char}
    (htext : l.text.toList = first :: rest) (hspace : ' ' ∉ first :: rest)
    (hshown : l.shown.text = l.text) (hread : ofText l.text = l.shown) : Legible l where
  text_ne_nil := by
    rw [htext]
    exact List.cons_ne_nil first rest
  space_not_mem := by rwa [htext]
  text_shown := hshown
  ofText_text := hread

theorem legible_reserved (r : Reserved) : Legible ⟨.reserved r, .word r.spelling⟩ := by
  have htext : (text ⟨.reserved r, .word r.spelling⟩).toList =
      '[' :: (r.spelling.toList ++ [']']) := by
    change ("[" ++ r.spelling ++ "]").toList = _
    rw [String.toList_append, String.toList_append]
    rfl
  refine legible_of_cons htext ?_ rfl ?_
  · cases r <;> decide
  · rw [ofText_of_cons htext, if_pos rfl, List.dropLast_concat, String.ofList_toList,
      ofWord_eq (.inl ⟨r, rfl, rfl⟩)]
    rfl

theorem legible_identifier {spelling : String} (hword : IsWord (Text.utf8 spelling))
    (hkind : IsWordKind spelling .identifier) : Legible ⟨.identifier, .word spelling⟩ := by
  have hchars : spelling.toList = (Text.utf8 spelling).map Char.ofUInt8 := by
    rw [← Text.toList_latin1, Text.latin1_utf8]
    exact fun b hb => Byte.toNat_lt_of_isWordByte (hword.2 b hb)
  have hclass {b c : UInt8} (hb : Byte.isWordByte b = true) (hc : Byte.isWordByte c = false) :
      Char.ofUInt8 b ≠ Char.ofUInt8 c := by
    intro h
    rw [Text.Utf8.ofUInt8_injective h, hc] at hb
    cases hb
  obtain ⟨b, rest, hbytes, hstart⟩ := hword.exists_cons
  -- The first byte of a word is none with which a text of another form begins.
  have hb := Byte.isWordByte_of_isWordStart hstart
  have hdigit : Byte.isDigit b = false := by
    refine Bool.not_eq_true _ ▸ fun hdigit => ?_
    rw [Byte.isWordStart_of_isDigit hdigit] at hstart
    cases hstart
  have hbracket : Char.ofUInt8 b ≠ '[' := hclass (c := 0x5b) hb (by decide)
  have hquote : Char.ofUInt8 b ≠ '\'' := hclass (c := 0x27) hb (by decide)
  have hcons : spelling.toList = Char.ofUInt8 b :: rest.map Char.ofUInt8 := by
    rw [hchars, hbytes, List.map_cons]
  refine legible_of_cons hcons ?_ rfl ?_
  · rw [← hcons, hchars]
    intro hspace
    obtain ⟨c, hc, hequal⟩ := List.mem_map.1 hspace
    exact hclass (c := 0x20) (hword.2 c hc) (by decide) hequal
  · change ofText spelling = _
    rw [ofText_of_cons hcons, if_neg hbracket, if_neg hquote, Byte.isDigit_ofUInt8,
      if_neg (by simp [hdigit]), ofWord_eq hkind]
    rfl

theorem legible_symbol {s : Symbol} (hs : s ≠ .emptyArray) : Legible (ofSymbol s) := by
  have htext : (ofSymbol s).text.toList = '\'' :: (s.chars ++ ['\'']) := by
    change (Kind.symbol s).name.toList = _
    rw [Kind.name_symbol hs, Kind.quote, Symbol.spelling]
    simp only [String.toList_append, String.toList_ofList]
    rfl
  have hshown : (ofSymbol s).shown = ofSymbol s := if_neg fun h => hs (Kind.symbol.inj h)
  have hname : (ofSymbol s).text = (Kind.symbol s).name := rfl
  refine legible_of_cons htext ?_ (by rw [hshown]) ?_
  · cases s <;> decide
  · rw [hshown, ofText_of_cons htext, if_neg (by decide), if_pos rfl, hname, Symbol.ofName?_name]
    rfl

/-- The empty array is written and read as an identifier. -/
theorem legible_emptyArray : Legible (ofSymbol .emptyArray) := by
  have harray : Legible ⟨.identifier, .word "array"⟩ :=
    legible_identifier (by decide) (isWordKind_identifier (by decide))
  exact ⟨harray.text_ne_nil, harray.space_not_mem, rfl, harray.ofText_text⟩

theorem legible_integer {value : Int32} {n : Nat} (h : value.toInt = n) :
    Legible (ofInteger value) := by
  have htext : (ofInteger value).text.toList = Nat.toDigits 10 n := by
    change (toString value.toInt).toList = _
    rw [h]
    exact Nat.toList_repr
  have hdigits {c : Char} (hc : c ∈ Nat.toDigits 10 n) : c.isDigit = true :=
    Nat.isDigit_of_mem_toDigits (by decide) (by decide) hc
  have hclass {c d : Char} (hc : c ∈ Nat.toDigits 10 n) (hd : d.isDigit = false) : c ≠ d := by
    rintro rfl
    rw [hdigits hc] at hd
    cases hd
  obtain ⟨c, rest, hcons⟩ := List.exists_cons_of_ne_nil (Nat.toDigits_ne_nil (n := n) (b := 10))
  have hc : c ∈ Nat.toDigits 10 n := by
    rw [hcons]
    exact List.mem_cons_self
  refine legible_of_cons (htext.trans hcons) ?_ rfl ?_
  · rw [← hcons]
    exact fun hspace => hclass hspace (by decide) rfl
  · rw [ofText_of_cons (htext.trans hcons), if_neg (hclass hc (by decide)),
      if_neg (hclass hc (by decide)), if_pos (hdigits hc), ← hcons,
      Nat.ofDigitChars_ten_toDigits, ← h, Int32.ofInt_toInt]
    rfl

/-- Every lexeme that is spelled somewhere can be read in a dump. -/
theorem Spelled.legible {l : Lexeme} {bytes : List UInt8} (h : Spelled l bytes) : Legible l := by
  rcases h.kinds with ⟨spelling, kind, rfl, rfl, hword, -, hkind⟩ | ⟨value, rfl, -, -, hvalue⟩ |
    ⟨s, rfl, -⟩
  · rcases hkind with ⟨r, rfl, rfl⟩ | ⟨hplain, rfl⟩
    · exact legible_reserved r
    · exact legible_identifier hword (.inr ⟨hplain, rfl⟩)
  · exact legible_integer hvalue
  · by_cases hs : s = .emptyArray
    · rw [hs]
      exact legible_emptyArray
    · exact legible_symbol hs

end Lexeme

namespace Dump

/-! Texts on one line. -/

def words (line : List Char) : List (List Char) :=
  if line = [] then [] else line.splitOn ' '

/-- Words without spaces can be told apart behind one another. -/
theorem words_intercalate {ws : List (List Char)} (h : ∀ w ∈ ws, w ≠ [] ∧ ' ' ∉ w) :
    words ([' '].intercalate ws) = ws := by
  cases ws with
  | nil => rfl
  | cons w rest =>
    have hne : [' '].intercalate (w :: rest) ≠ [] := by
      obtain ⟨hw, -⟩ := h w List.mem_cons_self
      cases rest with
      | nil => rwa [List.intercalate_singleton]
      | cons w' rest =>
        rw [List.intercalate_cons_cons, List.append_assoc]
        exact List.append_ne_nil_of_left_ne_nil hw _
    rw [words, if_neg hne]
    exact List.splitOn_intercalate ' ' (fun w hw => (h w hw).2) (List.cons_ne_nil w rest)

/-- A line of texts is read back as the lexemes that it shows. -/
theorem map_ofText_words {ls : List Lexeme} (h : ∀ l ∈ ls, l.Legible) :
    (words ([' '].intercalate (ls.map fun l => l.text.toList))).map
      (fun w => Lexeme.ofText (String.ofList w)) = ls.map Lexeme.shown := by
  have hwords : ∀ w ∈ ls.map fun l => l.text.toList, w ≠ [] ∧ ' ' ∉ w := by
    intro w hw
    obtain ⟨l, hl, rfl⟩ := List.mem_map.1 hw
    exact ⟨(h l hl).text_ne_nil, (h l hl).space_not_mem⟩
  rw [words_intercalate hwords, List.map_map]
  refine List.map_congr_left fun l hl => ?_
  rw [Function.comp_apply, String.ofList_toList, (h l hl).ofText_text]

theorem map_text_shown {ls : List Lexeme} (h : ∀ l ∈ ls, l.Legible) :
    (ls.map Lexeme.shown).map (fun l => l.text.toList) = ls.map fun l => l.text.toList := by
  rw [List.map_map]
  refine List.map_congr_left fun l hl => ?_
  rw [Function.comp_apply, (h l hl).text_shown]

def lexemes (tokens : List Token) : List Lexeme :=
  (tokens.filter fun t => !t.isEnd).map Token.lexeme

private theorem toList_texts (tokens : List Token) :
    (texts tokens).toList =
      [' '].intercalate ((lexemes tokens).map fun l => l.text.toList) ++ ['\n'] := by
  rw [texts, lexemes, String.toList_append, String.toList_intercalate, List.map_map, List.map_map]
  rfl

/-- Where all tokens but the end can be read, the dump of their texts tells what they say, as far as
it shows that. -/
theorem texts_eq_iff {tokens tokens' : List Token} (h : ∀ l ∈ lexemes tokens, l.Legible)
    (h' : ∀ l ∈ lexemes tokens', l.Legible) :
    texts tokens = texts tokens' ↔
      (lexemes tokens).map Lexeme.shown = (lexemes tokens').map Lexeme.shown := by
  rw [← String.toList_inj, toList_texts, toList_texts, List.append_cancel_right_eq]
  constructor
  · intro hline
    rw [← map_ofText_words h, hline, map_ofText_words h']
  · intro hshown
    rw [← map_text_shown h, hshown, map_text_shown h']

/-! Kinds on lines of their own. -/

private theorem eq_of_append_cons_eq {c : Char} {a a' b b' : List Char} (ha : c ∉ a) (ha' : c ∉ a')
    (h : a ++ c :: b = a' ++ c :: b') : a = a' ∧ b = b' := by
  induction a generalizing a' with
  | nil =>
    cases a' with
    | nil => exact ⟨rfl, (List.cons.inj h).2⟩
    | cons d a' => exact absurd ((List.cons.inj h).1 ▸ List.mem_cons_self) ha'
  | cons d a ih =>
    cases a' with
    | nil => exact absurd ((List.cons.inj h).1 ▸ List.mem_cons_self) ha
    | cons d' a' =>
      obtain ⟨rfl, hrest⟩ := List.cons.inj h
      obtain ⟨rfl, rfl⟩ :=
        ih (List.not_mem_of_not_mem_cons ha) (List.not_mem_of_not_mem_cons ha') hrest
      exact ⟨rfl, rfl⟩

private theorem not_mem_toString {n : Nat} {c : Char} (hc : c.isDigit = false) :
    c ∉ (toString n).toList := by
  intro hmem
  rw [Nat.toString_eq_repr, Nat.toList_repr] at hmem
  rw [Nat.isDigit_of_mem_toDigits (by decide) (by decide) hmem] at hc
  cases hc

private theorem eq_of_toString_eq {n m : UInt32}
    (h : (toString n.toNat).toList = (toString m.toNat).toList) : n = m := by
  rw [Nat.toString_eq_repr, Nat.toString_eq_repr, Nat.toList_repr, Nat.toList_repr] at h
  apply UInt32.toNat.inj
  rw [← Nat.ofDigitChars_ten_toDigits (n := n.toNat), h, Nat.ofDigitChars_ten_toDigits]

private theorem toList_line_append (p : Position) (k : Kind) (behind : List Char) :
    (line p k).toList ++ behind =
      (toString p.line.toNat).toList ++ ':' ::
        ((toString p.column.toNat).toList ++ ' ' :: (k.name.toList ++ '\n' :: behind)) := by
  change ((toString p.line.toNat ++ ":" ++ toString p.column.toNat) ++ " " ++
    k.name ++ "\n").toList ++ behind = _
  simp only [String.toList_append, List.append_assoc]
  rfl

private theorem eq_of_line_append_eq {e e' : Position × Kind} {behind behind' : List Char}
    (h : (line e.1 e.2).toList ++ behind = (line e'.1 e'.2).toList ++ behind') :
    e = e' ∧ behind = behind' := by
  rw [toList_line_append, toList_line_append] at h
  obtain ⟨⟨l, c⟩, k⟩ := e
  obtain ⟨⟨l', c'⟩, k'⟩ := e'
  obtain ⟨hline, hrest⟩ :=
    eq_of_append_cons_eq (not_mem_toString (by decide)) (not_mem_toString (by decide)) h
  obtain ⟨hcolumn, hrest⟩ :=
    eq_of_append_cons_eq (not_mem_toString (by decide)) (not_mem_toString (by decide)) hrest
  obtain ⟨hname, hbehind⟩ :=
    eq_of_append_cons_eq k.lineFeed_not_mem_name k'.lineFeed_not_mem_name hrest
  obtain rfl : l = l' := eq_of_toString_eq hline
  obtain rfl : c = c' := eq_of_toString_eq hcolumn
  obtain rfl := Kind.name_injective (String.toList_inj.1 hname)
  exact ⟨rfl, hbehind⟩

private theorem flatMap_line_injective {entries entries' : List (Position × Kind)}
    (h : entries.flatMap (fun e => (line e.1 e.2).toList) =
      entries'.flatMap fun e => (line e.1 e.2).toList) : entries = entries' := by
  induction entries generalizing entries' with
  | nil =>
    cases entries' with
    | nil => rfl
    | cons e' rest' =>
      rw [List.flatMap_cons, toList_line_append] at h
      exact absurd h.symm (by simp)
  | cons e rest ih =>
    cases entries' with
    | nil =>
      rw [List.flatMap_cons, toList_line_append] at h
      exact absurd h (by simp)
    | cons e' rest' =>
      rw [List.flatMap_cons, List.flatMap_cons] at h
      obtain ⟨rfl, hrest⟩ := eq_of_line_append_eq h
      rw [ih hrest]

/-- The lines tell the places and the kinds of all tokens, whatever these are. -/
theorem join_line_eq_iff (tokens tokens' : List Token) :
    String.join (tokens.map fun t => line t.position t.kind) =
        String.join (tokens'.map fun t => line t.position t.kind) ↔
      tokens.map (fun t => (t.position, t.kind)) = tokens'.map fun t => (t.position, t.kind) := by
  have hwritten (tokens : List Token) :
      (String.join (tokens.map fun t => line t.position t.kind)).toList =
      (tokens.map fun t => (t.position, t.kind)).flatMap fun e => (line e.1 e.2).toList := by
    rw [String.toList_join, List.flatMap_map, List.flatMap_map]
  rw [← String.toList_inj, hwritten, hwritten]
  constructor
  · exact flatMap_line_injective
  · intro h
    rw [h]

end Dump

/-! The tokens of a file. -/

theorem Layout.Fits.legible {layout : Layout} {after source : List UInt8} {i : Nat}
    (h : layout.Fits after) : ∀ t ∈ layout.tokensFrom source i, t.lexeme.Legible := by
  induction h generalizing i with
  | last => exact List.forall_mem_nil _
  | cons _ hspelled _ _ ih => exact List.forall_mem_cons.2 ⟨hspelled.legible, ih⟩

theorem legible_of_tokenizeFile {path : Path} {content : Except ReadFault (List UInt8)}
    {read : List Token} (h : tokenizeFile path content = .ok read) :
    ∀ l ∈ Dump.lexemes read, l.Legible := by
  cases content with
  | error fault => cases h
  | ok bytes =>
    have hread : (Scan.ofBytes bytes (some path.sourceName)).tokens = .ok read := h
    obtain ⟨tokens, last, rfl, hrun⟩ := Scan.exists_run_of_tokens_eq_ok hread
    intro l hl
    obtain ⟨t, ht, rfl⟩ := List.mem_map.1 hl
    obtain ⟨hmem, hkind⟩ := List.mem_filter.1 ht
    rcases hrun.fits_or_rejected with ⟨layout, -, hfits, rfl, -⟩ | ⟨_, _, _, _, _, -, -, houtcome⟩
    · rcases List.mem_append.1 hmem with hmem | hmem
      · exact hfits.legible t hmem
      · obtain rfl := List.mem_singleton.1 hmem
        rw [hrun.isEnd] at hkind
        cases hkind
    · cases houtcome

namespace CommandLine

/-- What the program writes to its output for a file, in one form or the other. -/
def Settings.outputAs (s : Settings) (kinds : Bool) (content : Except ReadFault (List UInt8)) :
    String :=
  (({ s with kinds : Settings }.answer content).outcome none).output

private theorem outputAs_of_tokenizeFile {s : Settings} {content : Except ReadFault (List UInt8)}
    {read : List Token} (h : tokenizeFile s.path content = .ok read) (kinds : Bool) :
    s.outputAs kinds content =
      if kinds then String.join (read.map fun t => Dump.line t.position t.kind)
      else Dump.texts read := by
  have hread : tokenizeFile { s with kinds : Settings }.path content = .ok read := h
  rw [Settings.outputAs, Settings.outcome_of_tokenizeFile_ok hread]

/-- Of two files that are tokenized, the texts are dumped alike exactly if the tokens but for the
end say the same, where the empty array and the identifier of its name count as the same. The kinds
are dumped alike exactly if all places and kinds are equal. -/
theorem outputAs_eq_iff {s s' : Settings} {content content' : Except ReadFault (List UInt8)}
    {read read' : List Token} (h : tokenizeFile s.path content = .ok read)
    (h' : tokenizeFile s'.path content' = .ok read') :
    (s.outputAs false content = s'.outputAs false content' ↔
      (Dump.lexemes read).map Lexeme.shown = (Dump.lexemes read').map Lexeme.shown) ∧
    (s.outputAs true content = s'.outputAs true content' ↔
      read.map (fun t => (t.position, t.kind)) = read'.map fun t => (t.position, t.kind)) := by
  rw [outputAs_of_tokenizeFile h, outputAs_of_tokenizeFile h', outputAs_of_tokenizeFile h,
    outputAs_of_tokenizeFile h']
  exact ⟨Dump.texts_eq_iff (legible_of_tokenizeFile h) (legible_of_tokenizeFile h'),
    Dump.join_line_eq_iff read read'⟩

/-- The texts do not tell the empty array from an identifier, but the kinds do. -/
theorem outputAs_eq_iff_array :
    let s : Settings := ⟨.ofString "a.dm", none, false, false, false⟩
    let s' : Settings := ⟨.ofString "b.dm", none, false, false, false⟩
    let content : Except ReadFault (List UInt8) := .ok (Text.utf8 "[]")
    let content' : Except ReadFault (List UInt8) := .ok (Text.utf8 "array")
    let read : List Token :=
      [⟨.symbol .emptyArray, .none, ⟨1, 1⟩⟩, ⟨.endOfFile, .none, ⟨1, 3⟩⟩]
    let read' : List Token :=
      [⟨.identifier, .word "array", ⟨1, 1⟩⟩, ⟨.endOfFile, .none, ⟨1, 6⟩⟩]
    tokenizeFile s.path content = .ok read ∧ tokenizeFile s'.path content' = .ok read' ∧
      s.outputAs false content = s'.outputAs false content' ∧
      s.outputAs true content ≠ s'.outputAs true content' := by
  intro s s' content content' read read'
  have hword : Lexeme.Spelled ⟨.identifier, .word "array"⟩ (Text.utf8 "array") :=
    .identifier (by decide) (by decide) (by decide)
  have hfits : Layout.Fits (.cons [] (Text.utf8 "[]") (.ofSymbol .emptyArray) (.last [])) [] :=
    .cons .nil .emptyArray (by decide) (.last .nil)
  have hfits' : Layout.Fits (.cons [] (Text.utf8 "array") ⟨.identifier, .word "array"⟩ (.last []))
      [] :=
    .cons .nil hword (by decide) (.last .nil)
  have hread : tokenizeFile s.path content = .ok read := (hfits.run _).tokens_eq
  have hread' : tokenizeFile s'.path content' = .ok read' := (hfits'.run _).tokens_eq
  obtain ⟨htexts, hkinds⟩ := outputAs_eq_iff hread hread'
  refine ⟨hread, hread', htexts.2 rfl, fun hequal => ?_⟩
  have hplaces := hkinds.1 hequal
  simp [read, read'] at hplaces

end CommandLine

end Lexis

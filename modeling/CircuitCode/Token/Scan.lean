import CircuitCode.Text.Blank
import CircuitCode.Token.Lexeme

/-!
# The tokens of a text

`tokenize` lists the tokens of a text from left to right, up to its end or up to the first
character that no token can start with. Blanks between tokens are passed over.
-/

namespace CircuitCode

/-- The part of a text that is still to be read, and its place in the whole. -/
structure Cursor where
  rest : List Char
  position : Nat
  column : Nat

/-- A character that no token can start with, and its position. -/
structure StrayCharacter where
  position : Nat
  char : Char
deriving DecidableEq, Repr

/-- The tokens of a text and the character at which they end early, if there is one. -/
structure Scan where
  tokens : List Token
  stray : Option StrayCharacter
deriving DecidableEq, Repr

namespace Cursor

/-- The place of the start of a text. -/
def start (text : List Char) : Cursor := ⟨text, 0, 1⟩

/-- The place after the next `length` characters. -/
def advance (c : Cursor) (length : Nat) : Cursor :=
  let passed := c.rest.take length
  ⟨c.rest.drop length, c.position + byteLength passed, c.column + passed.length⟩

/-- The place of the next character that is not blank. -/
def skipBlanks (c : Cursor) : Cursor := c.advance (c.rest.takeWhile isBlank).length

/-- A token at this place. -/
def token (c : Cursor) (kind : TokenKind) (text : List Char) : Token :=
  ⟨kind, String.ofList text, c.position, c.column⟩

theorem length_skipBlanks_le (c : Cursor) : c.skipBlanks.rest.length ≤ c.rest.length := by
  simp [skipBlanks, advance]

end Cursor

/-- The mode after a token. -/
def LexicalMode.after (mode : LexicalMode) (kind : TokenKind) : LexicalMode :=
  match kind with
  | .openBrace => .block
  | .closeBrace => .outside
  | .colon => if mode = .block then .label else mode
  | _ => mode

/-- What stands at a place in a text. -/
inductive ScanStep where
  | finished
  | stray (character : StrayCharacter)
  | token (token : Token) (mode : LexicalMode) (next : Cursor)

/-- The label at a place after a colon: all up to the closing brace, without the blanks around it.
    It may be empty, but not at the end of the text. -/
def scanLabel (cursor : Cursor) : ScanStep :=
  let start := cursor.skipBlanks
  let text := start.rest.takeWhile fun c => c != '\x7d'
  if start.rest.isEmpty then .finished
  else .token (start.token .label (trimEnd text)) .block (start.advance text.length)

/-- The next token at a place in a text. -/
def scanToken (mode : LexicalMode) (cursor : Cursor) : ScanStep :=
  let start := cursor.skipBlanks
  match start.rest with
  | [] => .finished
  | c :: _ =>
    match Lexeme.next? mode start.rest with
    | none => .stray ⟨start.position, c⟩
    | some (kind, length) =>
      .token (start.token kind (start.rest.take length)) (mode.after kind) (start.advance length)

def scanStep (mode : LexicalMode) (cursor : Cursor) : ScanStep :=
  match mode with
  | .label => scanLabel cursor
  | _ => scanToken mode cursor

/-- What is left to scan. A label may be empty, but what follows it is not a label. -/
def scanMeasure (mode : LexicalMode) (cursor : Cursor) : Nat :=
  2 * cursor.rest.length + (if mode = .label then 1 else 0)

theorem scanStep_lt {mode mode' : LexicalMode} {cursor next : Cursor} {token : Token}
    (h : scanStep mode cursor = .token token mode' next) :
    scanMeasure mode' next < scanMeasure mode cursor := by
  have hskip := cursor.length_skipBlanks_le
  have htoken (hmode : mode ≠ .label) (h : scanToken mode cursor = .token token mode' next) :
      next.rest.length < cursor.rest.length := by
    simp only [scanToken] at h
    split at h
    · cases h
    · next c rest heq =>
        split at h
        · cases h
        · next kind length hnext =>
            cases h
            have hpos := Lexeme.next?_pos hnext
            simp only [Cursor.advance, List.length_drop]
            rw [heq] at hskip ⊢
            simp only [List.length_cons] at hskip ⊢
            omega
  cases mode with
  | label =>
    simp only [scanStep, scanLabel] at h
    split at h
    · cases h
    · cases h
      simp only [scanMeasure, Cursor.advance, List.length_drop, reduceCtorEq, ↓reduceIte]
      omega
  | outside =>
    have := htoken (by decide) h
    simp only [scanMeasure, reduceCtorEq, ↓reduceIte]
    split <;> omega
  | block =>
    have := htoken (by decide) h
    simp only [scanMeasure, reduceCtorEq, ↓reduceIte]
    split <;> omega

/-- The tokens from a place on. -/
def scanFrom (mode : LexicalMode) (cursor : Cursor) : Scan :=
  match _h : scanStep mode cursor with
  | .finished => ⟨[], none⟩
  | .stray character => ⟨[], some character⟩
  | .token token mode' next =>
    let rest := scanFrom mode' next
    ⟨token :: rest.tokens, rest.stray⟩
termination_by scanMeasure mode cursor
decreasing_by exact scanStep_lt ‹_›

/-- The tokens of a text. -/
def tokenize (text : String) : Scan := scanFrom .outside (Cursor.start text.toList)

end CircuitCode

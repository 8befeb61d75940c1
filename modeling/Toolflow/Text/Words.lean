/-! Command lines as texts: words are quoted so that a shell would read them back.

`quote` puts a word in single quotes when it is empty or holds a special character. `split?` reads
words with single and double quotes, `\`, and comments, and fails where a quote is not closed. -/
namespace Toolflow.Text

/-- The characters that make a word need quotes. -/
def specials : List Char := "|&;<>()$`\\\"' \t\n*?[#~=%".toList

def quoteChars (cs : List Char) : List Char :=
  if cs ≠ [] ∧ ¬ cs.any (specials.contains ·) then cs
  else '\'' :: cs.flatMap (fun c => if c = '\'' then ['\'', '\\', '\'', '\''] else [c]) ++ ['\'']

def quote (word : String) : String := String.ofList (quoteChars word.toList)

/-- Words as one line. -/
def joinWords (words : List String) : String := " ".intercalate (words.map quote)

/-- Where a reader of words stands. -/
inductive WordState where
  | between
  | escapedBetween
  | plain
  | escapedPlain
  | single
  | double
  | escapedDouble
  | comment
deriving Repr, DecidableEq

def isWordGap (c : Char) : Bool := c == ' ' || c == '\t' || c == '\n'

/-- Reads words onto `done`; `word` holds the characters of the present one, last first. -/
def splitFrom (done : List (List Char)) (word : List Char) :
    WordState → List Char → Option (List (List Char))
  | .between, [] | .comment, [] => some done
  | .plain, [] => some (done ++ [word.reverse])
  | .escapedBetween, [] | .escapedPlain, [] => some (done ++ [('\\' :: word).reverse])
  | .single, [] | .double, [] | .escapedDouble, [] => none
  | .between, c :: rest =>
    if c = '\'' then splitFrom done word .single rest
    else if c = '"' then splitFrom done word .double rest
    else if c = '\\' then splitFrom done word .escapedBetween rest
    else if isWordGap c then splitFrom done word .between rest
    else if c = '#' then splitFrom done word .comment rest
    else splitFrom done (c :: word) .plain rest
  | .escapedBetween, c :: rest =>
    if c = '\n' then splitFrom done word .between rest
    else splitFrom done (c :: word) .plain rest
  | .plain, c :: rest =>
    if c = '\'' then splitFrom done word .single rest
    else if c = '"' then splitFrom done word .double rest
    else if c = '\\' then splitFrom done word .escapedPlain rest
    else if isWordGap c then splitFrom (done ++ [word.reverse]) [] .between rest
    else splitFrom done (c :: word) .plain rest
  | .escapedPlain, c :: rest =>
    if c = '\n' then splitFrom done word .plain rest
    else splitFrom done (c :: word) .plain rest
  | .single, c :: rest =>
    if c = '\'' then splitFrom done word .plain rest
    else splitFrom done (c :: word) .single rest
  | .double, c :: rest =>
    if c = '"' then splitFrom done word .plain rest
    else if c = '\\' then splitFrom done word .escapedDouble rest
    else splitFrom done (c :: word) .double rest
  | .escapedDouble, c :: rest =>
    if c = '\n' then splitFrom done word .double rest
    else if c = '$' ∨ c = '\x60' ∨ c = '"' ∨ c = '\\' then splitFrom done (c :: word) .double rest
    else splitFrom done (c :: '\\' :: word) .double rest
  | .comment, c :: rest => splitFrom done word (if c = '\n' then .between else .comment) rest

/-- The words of a line, if all its quotes are closed. -/
def split? (line : String) : Option (List String) :=
  (splitFrom [] [] .between line.toList).map (·.map String.ofList)

end Toolflow.Text

import OmenDb.Sql.Value

/-! Scripts of the dump and restore commands: quoting, and the quote-aware splitting of a script into
its statements. Texts are lists of characters. -/
namespace OmenDb.Sql

inductive Quote
  | single | double
  deriving DecidableEq

namespace Quote

def mark : Quote → Char
  | single => '\''
  | double => '"'

def unterminated : Quote → DbError
  | single => .invalidState "unterminated string literal in dump"
  | double => .invalidState "unterminated quoted identifier in dump"

/-- The text between two marks, with every mark inside it doubled. -/
def enclose (quote : Quote) (text : List Char) : List Char :=
  quote.mark :: (text.flatMap fun c => if c = quote.mark then [quote.mark, quote.mark] else [c]) ++ [quote.mark]

end Quote

def quoteIdentifier (name : List Char) : List Char := Quote.double.enclose name

def quoteString (text : List Char) : List Char := Quote.single.enclose text

def isWhitespace (c : Char) : Bool :=
  let code := c.toNat
  (9 ≤ code && code ≤ 13) || (0x2000 ≤ code && code ≤ 0x200a) ||
    [0x20, 0x85, 0xa0, 0x1680, 0x2028, 0x2029, 0x202f, 0x205f, 0x3000].contains code

def trim (text : List Char) : List Char := (text.dropWhile isWhitespace).rdropWhile isWhitespace

/-- The statement that ends here, unless there is nothing but white space. -/
def endStatement (statements : List (List Char)) (current : List Char) : List (List Char) :=
  if trim current = [] then statements else statements ++ [trim current]

/-- The loops of `split_statements`: outside quotes, or inside the quotes that are open. -/
def splitFrom (statements : List (List Char)) (current : List Char) :
    Option Quote → List Char → DbResult (List (List Char))
  | none, [] => .ok (endStatement statements current)
  | some quote, [] => .error quote.unterminated
  | none, c :: rest =>
    if c = '\'' then splitFrom statements (current ++ ['\'']) (some .single) rest
    else if c = '"' then splitFrom statements (current ++ ['"']) (some .double) rest
    else if c = ';' then splitFrom (endStatement statements current) [] none rest
    else splitFrom statements (current ++ [c]) none rest
  | some quote, [c] =>
    if c = quote.mark then splitFrom statements (current ++ [quote.mark]) none []
    else splitFrom statements (current ++ [c]) (some quote) []
  | some quote, c :: next :: rest =>
    if c = quote.mark then
      -- the next character is looked at, and taken only when it doubles the mark
      if next = quote.mark then splitFrom statements (current ++ [quote.mark, quote.mark]) (some quote) rest
      else splitFrom statements (current ++ [quote.mark]) none (next :: rest)
    else splitFrom statements (current ++ [c]) (some quote) (next :: rest)

def splitStatements (source : List Char) : DbResult (List (List Char)) := splitFrom [] [] none source

/-- What may stand between two marks: other characters, and marks in pairs. -/
inductive QuoteBody (quote : Quote) : List Char → Prop
  | nil : QuoteBody quote []
  | plain {c : Char} {body : List Char} : c ≠ quote.mark → QuoteBody quote body → QuoteBody quote (c :: body)
  | pair {body : List Char} : QuoteBody quote body → QuoteBody quote (quote.mark :: quote.mark :: body)

def QuotedToken (quote : Quote) (text : List Char) : Prop :=
  ∃ body, QuoteBody quote body ∧ text = quote.mark :: body ++ [quote.mark]

/-- Every quote that is opened is closed, and no semicolon stands outside quotes. -/
inductive Balanced : List Char → Prop
  | nil : Balanced []
  | plain {c : Char} {rest : List Char} : c ≠ '\'' → c ≠ '"' → c ≠ ';' → Balanced rest → Balanced (c :: rest)
  | quoted {quote : Quote} {token rest : List Char} : QuotedToken quote token → Balanced rest → Balanced (token ++ rest)

theorem enclose_token (quote : Quote) (text : List Char) : QuotedToken quote (quote.enclose text) := by
  refine ⟨_, ?_, rfl⟩
  induction text with
  | nil => exact .nil
  | cons c text ih =>
    by_cases hc : c = quote.mark
    · simpa [hc] using QuoteBody.pair ih
    · simpa [hc] using QuoteBody.plain hc ih

variable {statements : List (List Char)} {current : List Char}

theorem splitFrom_plain {c : Char} {rest : List Char} (hs : c ≠ '\'') (hd : c ≠ '"') (hc : c ≠ ';') :
    splitFrom statements current none (c :: rest) = splitFrom statements (current ++ [c]) none rest := by
  rw [splitFrom, if_neg hs, if_neg hd, if_neg hc]

theorem splitFrom_open (quote : Quote) (rest : List Char) :
    splitFrom statements current none (quote.mark :: rest) =
      splitFrom statements (current ++ [quote.mark]) (some quote) rest := by
  cases quote <;> simp [splitFrom, Quote.mark]

theorem splitFrom_inside {quote : Quote} {c : Char} (rest : List Char) (hc : c ≠ quote.mark) :
    splitFrom statements current (some quote) (c :: rest) =
      splitFrom statements (current ++ [c]) (some quote) rest := by
  cases rest with
  | nil => rw [splitFrom.eq_4, if_neg hc]
  | cons next rest => rw [splitFrom.eq_5, if_neg hc]

/-- A mark inside quotes closes them. Where another follows, the pair is kept and the quotes stay
open, which is also what closing them and opening them again gives. -/
theorem splitFrom_close (quote : Quote) (rest : List Char) :
    splitFrom statements current (some quote) (quote.mark :: rest) =
      splitFrom statements (current ++ [quote.mark]) none rest := by
  cases rest with
  | nil => rw [splitFrom.eq_4, if_pos rfl]
  | cons next rest =>
    by_cases hnext : next = quote.mark
    · rw [splitFrom.eq_5, if_pos rfl, if_pos hnext, hnext, splitFrom_open, List.append_assoc]
      rfl
    · rw [splitFrom.eq_5, if_pos rfl, if_neg hnext]

theorem splitFrom_body {quote : Quote} {body : List Char} (h : QuoteBody quote body) (rest : List Char) :
    splitFrom statements current (some quote) (body ++ rest) =
      splitFrom statements (current ++ body) (some quote) rest := by
  induction h generalizing current with
  | nil => simp
  | plain hc _ ih =>
    rw [List.cons_append, splitFrom_inside _ hc, ih, List.append_assoc]
    rfl
  | pair _ ih =>
    rw [List.cons_append, List.cons_append, splitFrom_close, splitFrom_open, ih]
    simp

theorem splitFrom_balanced {text : List Char} (h : Balanced text) (rest : List Char) :
    splitFrom statements current none (text ++ rest) = splitFrom statements (current ++ text) none rest := by
  induction h generalizing current with
  | nil => simp
  | plain hs hd hc _ ih =>
    rw [List.cons_append, splitFrom_plain hs hd hc, ih, List.append_assoc]
    rfl
  | quoted htoken _ ih =>
    obtain ⟨body, hbody, rfl⟩ := htoken
    simp only [List.cons_append, List.append_assoc, List.nil_append]
    rw [splitFrom_open, splitFrom_body hbody, splitFrom_close, ih]
    simp

theorem splitFrom_statement {statement : List Char} (hbalanced : Balanced statement)
    (htrim : trim statement = statement) (hne : statement ≠ []) (rest : List Char) :
    splitFrom statements [] none (statement ++ ';' :: rest) = splitFrom (statements ++ [statement]) [] none rest := by
  rw [splitFrom_balanced hbalanced, List.nil_append, splitFrom]
  simp [endStatement, htrim, hne]

/-- A statement of a script: not empty, without white space around it, balanced. -/
structure Statement (text : List Char) : Prop where
  nonempty : text ≠ []
  trimmed : trim text = text
  balanced : Balanced text

theorem splitFrom_statements (script : List (List Char)) (h : ∀ text ∈ script, Statement text) :
    splitFrom statements [] none (script.flatMap (· ++ [';'])) = .ok (statements ++ script) := by
  induction script generalizing statements with
  | nil => simp [splitFrom, endStatement, trim]
  | cons text script ih =>
    have htext := h text (by simp)
    rw [List.flatMap_cons, List.append_assoc, List.singleton_append,
      splitFrom_statement htext.balanced htext.trimmed htext.nonempty,
      ih fun other hother => h other (List.mem_cons_of_mem _ hother), List.append_assoc]
    rfl

/-- A script of statements is split into them, and what the dump quotes is a quoted token. -/
theorem splitStatements_script (script : List (List Char)) (h : ∀ text ∈ script, Statement text) :
    splitStatements (script.flatMap (· ++ [';'])) = .ok script ∧
      (∀ text, QuotedToken .single (quoteString text)) ∧ ∀ name, QuotedToken .double (quoteIdentifier name) :=
  ⟨splitFrom_statements script h, enclose_token .single, enclose_token .double⟩

/-- A statement with a quoted semicolon and a doubled mark, then a quoted name on its own. -/
def quotedScript : List (List Char) := [['S', ' ', '\'', ';', '\'', '\'', '\''], ['"', 'a', '"']]

theorem splitStatements_quoted : (∀ text ∈ quotedScript, Statement text) ∧
    splitStatements (quotedScript.flatMap (· ++ [';'])) = .ok quotedScript := by
  have hscript : ∀ text ∈ quotedScript, Statement text := by
    have hstring : QuotedToken .single (quoteString [';', '\'']) := enclose_token .single _
    have hname : QuotedToken .double (quoteIdentifier ['a']) := enclose_token .double _
    intro text htext
    simp only [quotedScript, List.mem_cons, List.not_mem_nil, or_false] at htext
    rcases htext with rfl | rfl
    · exact ⟨by decide, by decide, .plain (by decide) (by decide) (by decide)
        (.plain (by decide) (by decide) (by decide) (.quoted hstring .nil))⟩
    · exact ⟨by decide, by decide, .quoted hname .nil⟩
  exact ⟨hscript, (splitStatements_script quotedScript hscript).1⟩

end OmenDb.Sql

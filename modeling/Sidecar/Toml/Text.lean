/-! Blanks, comments and strings of TOML. Every reader takes the text and gives what it read and
what is left. -/

namespace Sidecar.Toml

def isBlank (c : Char) : Bool :=
  c == ' ' || c == '\t'

def skipBlanks (cs : List Char) : List Char :=
  cs.dropWhile isBlank

/-- What a comment or a string may hold unescaped, line ends apart. -/
def isPlain (c : Char) : Bool :=
  c == '\t' || decide (0x20 ≤ c.toNat) && c != '\x7f'

def newline? : List Char → Option (List Char)
  | '\n' :: rest => some rest
  | '\r' :: '\n' :: rest => some rest
  | _ => none

/-- A comment reaches up to the first character that it may not hold. -/
def skipComment : List Char → List Char
  | '#' :: rest => rest.dropWhile isPlain
  | cs => cs

def lineEnd? (cs : List Char) : Option (List Char) :=
  match skipComment (skipBlanks cs) with
  | [] => some []
  | rest => newline? rest

def skipLines : List Char → List Char
  | [] => []
  | '\n' :: rest => skipLines rest
  | '\r' :: '\n' :: rest => skipLines rest
  | '#' :: rest => inComment rest
  | c :: rest => if isBlank c then skipLines rest else c :: rest
where
  inComment : List Char → List Char
    | [] => []
    | '\n' :: rest => skipLines rest
    | '\r' :: '\n' :: rest => skipLines rest
    | c :: rest => if isPlain c then inComment rest else c :: rest

def hexValue? (c : Char) : Option Nat :=
  if c.isDigit then some (c.toNat - '0'.toNat)
  else if 'a' ≤ c ∧ c ≤ 'f' then some (c.toNat - 'a'.toNat + 10)
  else if 'A' ≤ c ∧ c ≤ 'F' then some (c.toNat - 'A'.toNat + 10)
  else none

def charOfHex? (ds : List Char) : Option Char := do
  let n ← ds.foldlM (fun n d => (hexValue? d).map (16 * n + ·)) 0
  if h : n.isValidChar then some ⟨UInt32.ofNat n, by
    have : n < 4294967296 := by
      rcases h with h | ⟨_, h⟩ <;> omega
    show (UInt32.ofNat n).isValidChar
    simpa [UInt32.isValidChar, UInt32.toNat_ofNat', Nat.mod_eq_of_lt this] using h⟩
  else none

def escape? : List Char → Option (Char × List Char)
  | 'b' :: rest => some ('\x08', rest)
  | 't' :: rest => some ('\t', rest)
  | 'n' :: rest => some ('\n', rest)
  | 'f' :: rest => some ('\x0c', rest)
  | 'r' :: rest => some ('\r', rest)
  | '"' :: rest => some ('"', rest)
  | '\\' :: rest => some ('\\', rest)
  | 'u' :: a :: b :: c :: d :: rest => (charOfHex? [a, b, c, d]).map (·, rest)
  | 'U' :: a :: b :: c :: d :: e :: f :: g :: h :: rest =>
    (charOfHex? [a, b, c, d, e, f, g, h]).map (·, rest)
  | _ => none

theorem escape?_length {cs rest : List Char} {c : Char} (h : escape? cs = some (c, rest)) :
    rest.length < cs.length := by
  unfold escape? at h
  split at h <;>
    first
    | (simp only [Option.map_eq_some_iff, Prod.mk.injEq] at h
       obtain ⟨_, -, -, rfl⟩ := h
       simp only [List.length_cons]; omega)
    | (simp only [Option.some.injEq, Prod.mk.injEq] at h
       obtain ⟨-, rfl⟩ := h
       simp)
    | simp at h

def basic? (cs : List Char) : Option (List Char × List Char) :=
  match cs with
  | [] => none
  | '"' :: rest => some ([], rest)
  | '\\' :: rest =>
    match h : escape? rest with
    | some (c, after) =>
      have := escape?_length h
      (basic? after).map fun (s, rest) => (c :: s, rest)
    | none => none
  | c :: rest =>
    if isPlain c then (basic? rest).map fun (s, rest) => (c :: s, rest) else none
  termination_by cs.length

def literal? : List Char → Option (List Char × List Char)
  | [] => none
  | '\'' :: rest => some ([], rest)
  | c :: rest =>
    if isPlain c then (literal? rest).map fun (s, rest) => (c :: s, rest) else none

/-- Splits off the delimiter of a string over several lines: three quotes, the last three of at
most five. -/
def closing? (q : Char) : List Char → Option (List Char × List Char)
  | a :: b :: c :: d :: e :: rest =>
    if a = q ∧ b = q ∧ c = q then
      if d = q then if e = q then some ([q, q], rest) else some ([q], e :: rest)
      else some ([], d :: e :: rest)
    else none
  | [a, b, c, d] =>
    if a = q ∧ b = q ∧ c = q then if d = q then some ([q], []) else some ([], [d]) else none
  | [a, b, c] => if a = q ∧ b = q ∧ c = q then some ([], []) else none
  | _ => none

def skipBlankLines : List Char → List Char
  | [] => []
  | '\r' :: '\n' :: rest => skipBlankLines rest
  | c :: rest => if isBlank c || c == '\n' then skipBlankLines rest else c :: rest

theorem skipBlankLines_length (cs : List Char) : (skipBlankLines cs).length ≤ cs.length := by
  fun_induction skipBlankLines cs <;> simp_all <;> omega

theorem newline?_length {cs rest : List Char} (h : newline? cs = some rest) :
    rest.length < cs.length := by
  unfold newline? at h
  split at h <;> grind

/-- The rest of a string in three double quotes. A backslash at the end of a line takes the line
end and all blanks after it away. -/
def basicLines? (cs : List Char) : Option (List Char × List Char) :=
  match closing? '"' cs with
  | some found => some found
  | none =>
    match cs with
    | [] => none
    | '\\' :: rest =>
      match hn : newline? (skipBlanks rest) with
      | some after =>
        have := newline?_length hn
        have := skipBlankLines_length after
        have : (skipBlanks rest).length ≤ rest.length := (List.dropWhile_sublist _).length_le
        basicLines? (skipBlankLines after)
      | none =>
        match h : escape? rest with
        | some (c, after) =>
          have := escape?_length h
          (basicLines? after).map fun (s, rest) => (c :: s, rest)
        | none => none
    | c :: rest =>
      match hn : newline? (c :: rest) with
      | some after =>
        have := newline?_length hn
        (basicLines? after).map fun (s, rest) => ('\n' :: s, rest)
      | none =>
        if isPlain c then (basicLines? rest).map fun (s, rest) => (c :: s, rest) else none
  termination_by cs.length
  decreasing_by all_goals (simp only [List.length_cons] at *; omega)

def literalLines? (cs : List Char) : Option (List Char × List Char) :=
  match closing? '\'' cs with
  | some found => some found
  | none =>
    match cs with
    | [] => none
    | c :: rest =>
      match hn : newline? (c :: rest) with
      | some after =>
        have := newline?_length hn
        (literalLines? after).map fun (s, rest) => ('\n' :: s, rest)
      | none =>
        if isPlain c then (literalLines? rest).map fun (s, rest) => (c :: s, rest) else none
  termination_by cs.length
  decreasing_by all_goals (simp only [List.length_cons] at *; omega)

/-- A line end right behind the opening quotes does not count. -/
def skipFirstNewline (cs : List Char) : List Char :=
  (newline? cs).getD cs

def string? : List Char → Option (List Char × List Char)
  | '"' :: '"' :: '"' :: rest => basicLines? (skipFirstNewline rest)
  | '\'' :: '\'' :: '\'' :: rest => literalLines? (skipFirstNewline rest)
  | '"' :: rest => basic? rest
  | '\'' :: rest => literal? rest
  | _ => none

def isBareKeyChar (c : Char) : Bool :=
  c.isAlphanum || c == '-' || c == '_'

def simpleKey? : List Char → Option (String × List Char)
  | '"' :: rest => (basic? rest).map fun (s, rest) => (String.ofList s, rest)
  | '\'' :: rest => (literal? rest).map fun (s, rest) => (String.ofList s, rest)
  | cs =>
    let name := cs.takeWhile isBareKeyChar
    if name = [] then none else some (String.ofList name, cs.dropWhile isBareKeyChar)

/-- Names that a key may have, one less than this. -/
def depthLimit : Nat := 80

/-- A key: names separated by dots, blanks around each. The last name comes second. -/
def key? (cs : List Char) : Option (List String × String × List Char) :=
  names (cs.length + 1) cs >>= fun (path, last, rest) =>
    if path.length + 1 < depthLimit then some (path, last, rest) else none
where
  names : Nat → List Char → Option (List String × String × List Char)
    | 0, _ => none
    | fuel + 1, cs => do
      let (name, rest) ← simpleKey? (skipBlanks cs)
      match skipBlanks rest with
      | '.' :: rest => (names fuel rest).map fun (path, last, rest) => (name :: path, last, rest)
      | rest => some ([], name, rest)

end Sidecar.Toml

import Lineage.Java.Token
/-! # Grammar rules

Rules that describe how trees are built from tokens, and their one interpreter. Choices are
ordered: the first alternative that matches is taken. Left recursion is written as a chain of a
head and tails that each wrap what stands before them.
-/
namespace Lineage.Java

inductive Rule (S : Type) where
  | word (text : String)
  /-- A symbol with nothing between it and the token before. -/
  | glued (text : String)
  | namedWord (kind : Kind) (text : String)
  | leaf (kind : Kind) (cls : TokenClass)
  | seq (rules : List (Rule S))
  | choice (rules : List (Rule S))
  | many (rule : Rule S)
  /-- Matches, without taking it, what the rule matches. -/
  | ahead (rule : Rule S)
  /-- Matches, taking nothing, where the rule does not match. -/
  | absent (rule : Rule S)
  | symbol (s : S)
  | node (kind : Kind) (rule : Rule S)
  | role (r : Role) (rule : Rule S)
  /-- A head, then any number of tails; each makes a node of its kind from what stands before it,
  which takes the given role, and from what its rule matches. -/
  | chain (head : Rule S) (tails : List (Kind × Option Role × Rule S))
  /-- Nodes that begin alike: the kind is that of the first alternative that matches. -/
  | begun (start : Rule S) (ends : List (Kind × Rule S))

namespace Rule

structure Piece where
  trivia : String
  comments : List Tree
  tree : Tree
  deriving Inhabited

namespace Piece

def ofToken (kind : Kind) (t : Token) : Piece :=
  ⟨t.trivia, t.comments, .node kind none t.text t.firstLine t.lastLine []⟩

def withRole (r : Role) (p : Piece) : Piece := { p with tree := p.tree.withRole r }

/-- A node of the given pieces. What stands before the first stands before the node. -/
def join (kind : Kind) : List Piece → Piece
  | [] => ⟨"", [], .node kind none "" 0 0 []⟩
  | p :: ps =>
    let last := ((p :: ps).getLast?.getD p).tree.lines.2
    ⟨p.trivia, p.comments,
      .node kind none (p.tree.text ++ String.join (ps.map fun q => q.trivia ++ q.tree.text))
        p.tree.lines.1 last (p.tree :: ps.flatMap fun q => q.comments ++ [q.tree])⟩

end Piece

variable {S : Type}

abbrev opt (r : Rule S) : Rule S := choice [r, seq []]

abbrev sepBy1 (r : Rule S) (sep : String) : Rule S := seq [r, many (seq [word sep, r])]

abbrev sepBy (r : Rule S) (sep : String) : Rule S := opt (sepBy1 r sep)

abbrev words (texts : List String) : Rule S := choice (texts.map word)

def takeIf (ok : Token → Bool) (kind : Kind) : List Token → Option (List Piece × List Token)
  | [] => none
  | t :: ts => if ok t then some ([Piece.ofToken kind t], ts) else none

/-- Runs a rule at the start of a token list: the pieces it matches and the tokens after them. The
first argument bounds the depth of the run. -/
def run (grammar : S → Rule S) : Nat → Rule S → List Token → Option (List Piece × List Token)
  | 0, _, _ => none
  | fuel + 1, rule, ts =>
    match rule with
    | word text => takeIf (fun t => t.text = text) .word ts
    | glued text => takeIf (fun t => t.text = text && t.trivia = "") .word ts
    | namedWord kind text => takeIf (fun t => t.text = text) kind ts
    | leaf kind cls => takeIf (fun t => t.cls = cls) kind ts
    | seq [] => some ([], ts)
    | seq (r :: rs) =>
      match run grammar fuel r ts with
      | none => none
      | some (a, ts) =>
        match run grammar fuel (seq rs) ts with
        | none => none
        | some (b, ts) => some (a ++ b, ts)
    | choice [] => none
    | choice (r :: rs) =>
      match run grammar fuel r ts with
      | some m => some m
      | none => run grammar fuel (choice rs) ts
    | many r =>
      match run grammar fuel r ts with
      | none => some ([], ts)
      | some ([], _) => some ([], ts)
      | some (a, rest) =>
        match run grammar fuel (many r) rest with
        | none => none
        | some (b, rest) => some (a ++ b, rest)
    | ahead r => (run grammar fuel r ts).map fun _ => ([], ts)
    | absent r =>
      match run grammar fuel r ts with
      | some _ => none
      | none => some ([], ts)
    | symbol s => run grammar fuel (grammar s) ts
    | node kind r => (run grammar fuel r ts).map fun m => ([Piece.join kind m.1], m.2)
    | role x r => (run grammar fuel r ts).map fun m => (m.1.map (Piece.withRole x), m.2)
    | chain head tails =>
      match run grammar fuel head ts with
      | none => none
      | some (a, ts) => runTails grammar fuel tails tails a ts
    | begun start ends =>
      match run grammar fuel start ts with
      | none => none
      | some (a, ts) => runEnds grammar fuel ends a ts
where
  runTails (grammar : S → Rule S) : Nat → List (Kind × Option Role × Rule S) →
      List (Kind × Option Role × Rule S) → List Piece → List Token →
      Option (List Piece × List Token)
    | 0, _, _, _, _ => none
    | _ + 1, _, [], a, ts => some (a, ts)
    | fuel + 1, all, (kind, r?, r) :: rest, a, ts =>
      match run grammar fuel r ts with
      | some (b, ts) =>
        let head := match r? with
          | some x => a.map (Piece.withRole x)
          | none => a
        runTails grammar fuel all all [Piece.join kind (head ++ b)] ts
      | none => runTails grammar fuel all rest a ts
  runEnds (grammar : S → Rule S) : Nat → List (Kind × Rule S) → List Piece → List Token →
      Option (List Piece × List Token)
    | 0, _, _, _ => none
    | _ + 1, [], _, _ => none
    | fuel + 1, (kind, r) :: rest, a, ts =>
      match run grammar fuel r ts with
      | some (b, ts) => some ([Piece.join kind (a ++ b)], ts)
      | none => runEnds grammar fuel rest a ts

/-- The one tree that a symbol matches at the start of a token list, with the trivia before it, if
the match takes all tokens. -/
def parse (grammar : S → Rule S) (s : S) (ts : List Token) : Option Piece :=
  match run grammar (2000 + 200 * ts.length) (symbol s) ts with
  | some ([p], []) => some p
  | _ => none

end Rule

end Lineage.Java

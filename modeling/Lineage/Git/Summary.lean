import Lineage.Text
/-! # Summaries of messages

The first paragraph of a commit message as one line.
-/
namespace Lineage.Git

def isSpace (c : Char) : Bool := c == ' ' || (9 ≤ c.toNat && c.toNat ≤ 13)

namespace Summary

def continues (rest : List Char) : Bool :=
  match rest.dropWhile fun c => isSpace c && c != '\n' with
  | [] | '\n' :: _ => false
  | _ :: _ => true

/-- What stands before the first blank line. -/
def paragraph : List Char → List Char
  | [] => []
  | c :: rest => if c == '\n' && !continues rest then [] else c :: paragraph rest

/-- Joins lines by single spaces and drops white space at the end. `run` is the white space just
before. -/
def unwrapped (run : List Char) : List Char → List Char
  | [] => []
  | c :: rest =>
    if isSpace c then unwrapped (run ++ [c]) rest
    else (if run.contains '\n' then [' '] else run) ++ c :: unwrapped [] rest

def ofMessage (message : String) : String :=
  String.ofList (unwrapped [] (paragraph (message.toList.dropWhile (· == '\n'))))

end Summary

def trimmedName (name : String) : String :=
  String.ofList (((name.toList.dropWhile isSpace).reverse.dropWhile isSpace).reverse)

end Lineage.Git

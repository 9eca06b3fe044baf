import Euxis.Bytes

/-!
# Syntax trees: `libs/parse`

The parser itself is tree-sitter. An `Ast` holds what the rest of the code reads from one: the
source, and the named nodes in pre-order.
-/

namespace Euxis.Parse

inductive Language where
  | c
  | cpp
  | rust
  | go
  | python
  | javaScript
  | typeScript
  | java
  deriving DecidableEq, Repr

def languageStr : Language → Bytes
  | .c => ascii "c"
  | .cpp => ascii "cpp"
  | .rust => ascii "rust"
  | .go => ascii "go"
  | .python => ascii "python"
  | .javaScript => ascii "javascript"
  | .typeScript => ascii "typescript"
  | .java => ascii "java"

/-! ## Extensions -/

def kExtensions : List (Bytes × Language) :=
  [(ascii "c", .c), (ascii "h", .c),
   (ascii "cpp", .cpp), (ascii "cxx", .cpp), (ascii "cc", .cpp), (ascii "hpp", .cpp),
   (ascii "hxx", .cpp),
   (ascii "hh", .cpp), (ascii "tpp", .cpp), (ascii "ipp", .cpp), (ascii "inl", .cpp),
   (ascii "c++", .cpp),
   (ascii "h++", .cpp), (ascii "cppm", .cpp),
   (ascii "rs", .rust),
   (ascii "go", .go),
   (ascii "py", .python), (ascii "pyi", .python), (ascii "pyw", .python),
   (ascii "js", .javaScript), (ascii "mjs", .javaScript), (ascii "cjs", .javaScript),
   (ascii "jsx", .javaScript),
   (ascii "ts", .typeScript), (ascii "mts", .typeScript), (ascii "cts", .typeScript),
   (ascii "java", .java)]

def detectLanguageByExtension (ext : Bytes) : Option Language :=
  let ext := if ext.head? = some (ch '.') then ext.tail else ext
  if ext = [] then none else kExtensions.lookup (Bytes.lower ext)

/-- `path::filename`: what follows the last slash. -/
def filename (path : Bytes) : Bytes := (path.splitOn (ch '/')).getLastD []

/-- `path::extension`: from the last dot of the file name, which must not be its first byte. -/
def extension (path : Bytes) : Bytes :=
  let name := filename path
  if name = ascii "." ∨ name = ascii ".." then []
  else
    let stem := (name.reverse.dropWhile (· ≠ ch '.')).drop 1
    if stem = [] then [] else ch '.' :: (name.reverse.takeWhile (· ≠ ch '.')).reverse

def detectLanguage (path : Bytes) : Option Language := detectLanguageByExtension (extension path)

/-! ## Trees -/

structure SourceRange where
  startRow : Nat
  startColumn : Nat
  endRow : Nat
  endColumn : Nat
  startByte : Nat
  endByte : Nat
  deriving DecidableEq, Repr

structure Ast where
  language : Language
  source : Bytes
  namedNodes : List (Bytes × SourceRange)

def Ast.nodeText (ast : Ast) (range : SourceRange) : Bytes :=
  if ast.source.length ≤ range.startByte ∨ ast.source.length < range.endByte ∨
    range.endByte < range.startByte then []
  else (ast.source.drop range.startByte).take (range.endByte - range.startByte)

/-! ## Visiting: `libs/parse/src/ast.cpp` -/

/-- A node of tree-sitter. A node that is not named stands for a token of the text. -/
inductive TSNode where
  | node (kind : Bytes) (named : Bool) (range : SourceRange) (children : List TSNode)

section

variable {σ : Type} (visit : σ → Bytes → SourceRange → Bool × σ)

mutual

/-- The visitor says whether to go down into the node. -/
def visitRecursive : TSNode → σ → Bool × σ
  | .node kind true range children, s =>
    match visit s kind range with
    | (false, s) => (true, s)
    | (true, s) => visitChildren children s
  | .node _ false _ children, s => visitChildren children s

def visitChildren : List TSNode → σ → Bool × σ
  | [], s => (true, s)
  | child :: rest, s =>
    match visitRecursive child s with
    | (false, s) => (false, s)
    | (true, s) => visitChildren rest s

end

end

/-- What a visitor sees that goes down everywhere. -/
def namedNodesOf (root : TSNode) : List (Bytes × SourceRange) :=
  (visitRecursive (fun seen kind range => (true, seen ++ [(kind, range)])) root []).2

def Ast.ofTree (language : Language) (source : Bytes) (root : TSNode) : Ast where
  language
  source
  namedNodes := namedNodesOf root

end Euxis.Parse

import StackCompiler.Code

/-!
# Arguments of the command

One input file may be named, and each option given once. The value of an option follows it, or
stands behind an equals sign, or right behind a one-letter name. One-letter flags may be written
together. After `--` all arguments are file names.
-/
namespace StackCompiler.CommandLine

structure Options where
  input : String := "main.ast.yaml"
  output : String := "main.asm"
  layout : Layout := {}
  /-- Where the symbol map is written, if anywhere. -/
  symbols : Option String := none
  verbose : Bool := false
  deriving DecidableEq, Repr

inductive Request where
  | version
  | compile (options : Options)
  deriving DecidableEq, Repr

structure Given where
  input : Option String := none
  output : Option String := none
  indent : Option Nat := none
  noComments : Bool := false
  symbols : Option String := none
  verbose : Bool := false

namespace Given

def options (g : Given) : Options :=
  let base : Options := {}
  { input := g.input.getD base.input
    output := g.output.getD base.output
    layout := ⟨g.indent.getD base.layout.indent, !g.noComments⟩
    symbols := g.symbols
    verbose := g.verbose }

/-- The input file; a second one is refused. -/
def setInput (g : Given) (path : String) : Option Given :=
  if g.input.isSome then none else some { g with input := some path }

end Given

inductive Setting where
  | output
  | indent
  | symbols
  deriving DecidableEq, Repr

def Setting.set (o : Setting) (g : Given) (value : String) : Option Given :=
  match o with
  | .output => if g.output.isSome then none else some { g with output := some value }
  | .symbols => if g.symbols.isSome then none else some { g with symbols := some value }
  | .indent =>
    if g.indent.isSome then none
    else (Text.word? value.toList).map fun n => { g with indent := some n }

inductive Flag where
  | noComments
  | verbose
  | version
  deriving DecidableEq, Repr

/-- What a flag leads to: an answer at once, or more known options. -/
inductive Step where
  | answer (request : Request)
  | more (given : Given)

def Flag.set (f : Flag) (g : Given) : Option Step :=
  match f with
  | .version => some (.answer .version)
  | .noComments => if g.noComments then none else some (.more { g with noComments := true })
  | .verbose => if g.verbose then none else some (.more { g with verbose := true })

def setting? : String → Option Setting
  | "output" => some .output
  | "indent" => some .indent
  | "symbols" => some .symbols
  | _ => none

def flag? : String → Option Flag
  | "no-comments" => some .noComments
  | "verbose" => some .verbose
  | "version" => some .version
  | _ => none

/-- What a group of one-letter options leads to. -/
inductive Group where
  | answer (request : Request)
  | more (given : Given)
  /-- The value of the last option has to follow. -/
  | pending (given : Given) (setting : Setting)

def letters : Given → List Char → Option Group
  | g, [] => some (.more g)
  | g, 'o' :: rest =>
    match rest with
    | [] => some (.pending g .output)
    | '=' :: value => (Setting.output.set g (String.ofList value)).map .more
    | value => (Setting.output.set g (String.ofList value)).map .more
  | g, 'v' :: rest =>
    match Flag.verbose.set g with
    | some (.more g) => letters g rest
    | _ => none
  | _, 'V' :: _ => some (.answer .version)
  | _, _ => none

/-- Whether an argument looks like an option. A hyphen alone does not. -/
def isOption (arg : String) : Bool :=
  match arg.toList with
  | '-' :: _ :: _ => true
  | _ => false

def fileNames : Given → List String → Option Request
  | g, [] => some (.compile g.options)
  | g, path :: rest => do fileNames (← g.setInput path) rest

def splitLong (cs : List Char) : String × Option String :=
  match cs.dropWhile (· != '=') with
  | _ :: value => (String.ofList (cs.takeWhile (· != '=')), some (String.ofList value))
  | [] => (String.ofList cs, none)

/-- Reads arguments from the left; `none` if they are not understood. An option that waits for its
value takes the next argument, unless that looks like an option. -/
def parseFrom : Given → Option Setting → List String → Option Request
  | g, none, [] => some (.compile g.options)
  | _, some _, [] => none
  | g, some o, arg :: rest => do
    if isOption arg then none else parseFrom (← o.set g arg) none rest
  | g, none, arg :: rest =>
    match arg.toList with
    | ['-', '-'] => fileNames g rest
    | '-' :: '-' :: long =>
      match splitLong long with
      | (name, some value) => do parseFrom (← (← setting? name).set g value) none rest
      | (name, none) =>
        match setting? name, flag? name with
        | some o, _ => parseFrom g (some o) rest
        | none, some f => do
          match ← f.set g with
          | .answer request => return request
          | .more g => parseFrom g none rest
        | none, none => none
    | '-' :: c :: cs => do
      match ← letters g (c :: cs) with
      | .answer request => return request
      | .more g => parseFrom g none rest
      | .pending g o => parseFrom g (some o) rest
    | _ => do parseFrom (← g.setInput arg) none rest

/-- Reads the arguments of the command; `none` if they are not understood. -/
def parse? (args : List String) : Option Request :=
  parseFrom {} none args

end StackCompiler.CommandLine

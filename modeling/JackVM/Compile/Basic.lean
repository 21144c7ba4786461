import JackVM.Compile.Class

/-!
# Compiling a source

`compileInto` writes the code of a class to any sink and gives the sink back,
also when the class does not compile: the code written before the error stays
there. `compile` collects the code.
-/

namespace JackVM

def compileUnit {ω : Type} [InstructionSink ω] (bound : Nat) : Compile ω Unit := do
  Compile.classDeclaration bound
  Compile.onSink InstructionSink.flush

def compileInto {ω : Type} [InstructionSink ω] (out : ω) (options : Options) (source : String) :
    Except (CompileError Position) Unit × ω :=
  match lexemes source with
  | .error e => (.error (e.locate source), out)
  | .ok found =>
    let tokens : TokenStream := { lexemes := found, stop := source.utf8ByteSize }
    match (compileUnit found.length).run { tokens, context := { options }, out } with
    | .ok _ s => (.ok (), s.out)
    | .error e s => (.error (e.locate source), s.out)

def compile (options : Options) (source : String) :
    Except (CompileError Position) (List Instruction) :=
  match compileInto (#[] : Listing) options source with
  | (.ok _, code) => .ok code.toList
  | (.error e, _) => .error e

def compileText (options : Options) (source : String) : Except (CompileError Position) String :=
  (compile options source).map codeText

end JackVM

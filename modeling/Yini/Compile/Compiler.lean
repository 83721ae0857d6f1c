import Yini.Compile.Include
import Yini.Resolve.Document

/-!
Compiling: reading a text with its includes and resolving the document.  A compiler keeps nothing
from one text to the next.
-/

namespace Yini

/-- What a compiler reads from and refers to. -/
structure Compiler where
  source : Source
  providers : Providers
  /-- The name that positions in a text carry, and that its includes are relative to. -/
  fileName : Option String

namespace Compiler

/-- Compiles a text. -/
def compile (c : Compiler) (text : String) : Except Fault Document := do
  let (d, _) ← gather c.source c.fileName text
  d.resolve c.providers

/-- Compiles a file. -/
def compileFile (c : Compiler) (path : String) : Except Fault Document := do
  if !c.source.isFile path then throw (.file .rootMissing path)
  let text ← c.source.read path
  let (d, _) ← gather c.source (some path) text
  d.resolve c.providers

end Compiler

end Yini

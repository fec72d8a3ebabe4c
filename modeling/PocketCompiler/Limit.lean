/-!
# Limits

What the machine can pass and address bounds what a program may declare.
-/

namespace PocketCompiler

/-- The number of arguments that a call can pass: each goes in a register of its own. -/
def maxArguments : Nat := 6

/-- The greatest size of an array, and of all locals of a function together: the greatest
displacement that an instruction can hold. -/
def maxObjectSize : Int := 2147483647

end PocketCompiler

import Nefor.Kernel.RunMoves

/-! Every actor that there ever was follows its life, however the runs of the kernel interleave. -/
namespace Nefor.Kernel
open Nefor.Lua Behaviour Constellation

namespace RunTable
variable {k : RunTable} {run : String} {c c' : Constellation} {events : List KernelEvent} {work work' : List Chore}
  {runs : AList fun _ : String => Constellation}

/-- The actors, named in the scope of their run. -/
def actors : Parties (String × String) Life where
  behaviour := life
  key := KernelEvent.actor
  owns scope key := key.1 = scope
  stands work run c key v := v = lifeOf (forgets work run key.2) c key.2
  closed v := v = .gone

def echoActor : LuaValue := .record [("id",.str "x"),("factory",.str "echo"),("type_arguments",.array [])]

/-- A run that was begun and is to spawn one actor. -/
def begun (work : List Chore) : RunTable :=
  { new with runSeq := 1, runs := AList.insert "a" (.new (scopeOf 1) (.str "s")) ∅, work := work }

end RunTable
end Nefor.Kernel

import InstrStream.Registry
import InstrStream.X86.Backend

/-! The registry that builders use unless told otherwise. -/
namespace InstrStream

def Registry.standard : Registry :=
  ((Registry.empty.register "amd64" X86.amd64).2.register "386" X86.i386).2

end InstrStream

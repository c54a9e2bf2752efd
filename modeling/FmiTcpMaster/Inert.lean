import FmiTcpMaster.ConnectionStrings
import FmiTcpMaster.Erasure
import FmiTcpMaster.Heard

/-! The options of the master that nothing depends on. --debug is dropped, strong connections are read
into vectors that nobody looks at, and the weak method into a member that no handler reads. -/
namespace FmiTcpMaster
namespace Connections

end Connections

/- m_method can be written at any time: no handler reads it, or writes it. -/
namespace Master
variable (m : Master) (w : WeakCouplingAlgorithm)

section Handlers
variable {K : Coupling} (equations : ∀ m w, K.getEquations (Master.setWeakMethod m w) = K.getEquations m)
include equations

end Handlers
end Master

namespace MasterMain

def Word.counts : Word → Bool
  | .timeStep _ | .stopAfter _ | .weakConnections _ | .url _ => true
  | .weakMethod _ | .strongConnections _ | .debug => false

end MasterMain
end FmiTcpMaster

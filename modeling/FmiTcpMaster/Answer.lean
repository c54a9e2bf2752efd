import FmiTcpMaster.Derivatives

/-! What an answer does to the slave that gave it, before tick() runs: every on_*_res method
writes to that one client and then calls tick(). -/
namespace FmiTcpMaster

def FMIClient.absorb (phase : MasterState) (a : Response) (c : FMIClient) : Except Fault FMIClient :=
  let c := c.deliver a
  match a with
  | .getXml => .ok {c with state := .doneGetXml}
  | .instantiate _ => .ok {c with state := .doneInstantiateSlave, isInstantiated := true}
  | .initializeSlave _ => .ok {c with initialized := true, state := .doneInitializeSlave}
  | .terminate _ => .ok {c with state := .doneTerminateSlave}
  | .freeInstance | .getVersion => .ok c
  | .doStep _ => .ok {c with state := .doneDoStep}
  | .setReal _ => .ok {c with state := .doneSetReal}
  | .getReal values _ =>
    let c := {c with getRealValues := values, state := .doneGetReal}
    match phase with
    | .getStrongConnectorStates => c.setConnectorValues c.getStrongConnectorValueReferences c.getRealValues
    | .gettingFutureVelo =>
      c.setConnectorFutureVelocities c.getStrongSeedOutputValueReferences c.getRealValues
    | _ => .ok c
  | .getFmuState _ _ => .ok {c with state := .doneGetState}
  | .setFmuState _ => .ok {c with state := .doneSetState}
  | .freeFmuState _ => .ok {c with state := .doneFreeState}
  | .getDirectionalDerivative _ _ =>
    let c := {c with numDirectionalDerivativesLeft := c.numDirectionalDerivativesLeft-1}
    if c.numDirectionalDerivativeRequests = 0 then .ok {c with state := .doneDirectionalDerivatives}
    else c.shiftExecuteDirectionalDerivativeRequest

theorem FMIClient.deliverFrame (c : FMIClient) (a : Response) :
    c.deliver a = {c with answered := (c.deliver a).answered, pending := (c.deliver a).pending} := by
  unfold deliver
  split
  · rfl
  · split <;> rfl

namespace Master

theorem onSlaveAt {K : Coupling} {m : Master} {l r : List FMIClient} {c : FMIClient}
    {f : FMIClient → Except Fault FMIClient} (split : m.slaves = l ++ c :: r) (distinct : m.addresses.Nodup) :
    m.onSlave K c.self f = (f c).bind fun c' => tick K {m with slaves := l ++ c' :: r} := by
  simp only [onSlave,derefAt split distinct]
  cases f c <;> rfl

theorem replaceDistinct {m : Master} {l r : List FMIClient} {c c' : FMIClient} (split : m.slaves = l ++ c :: r)
    (same : c'.self = c.self) (distinct : m.addresses.Nodup) :
    (addresses {m with slaves := l ++ c' :: r}).Nodup := by
  have addresses : addresses {m with slaves := l ++ c' :: r} = m.addresses := by
    simp [Master.addresses,split,same]
  rw [addresses]
  exact distinct

theorem receiveAbsorbs {K : Coupling} {m : Master} {l r : List FMIClient} {c : FMIClient} (a : Response)
    (split : m.slaves = l ++ c :: r) (distinct : m.addresses.Nodup) :
    m.receive K c.self a = (c.absorb m.state a).bind fun c' => tick K {m with slaves := l ++ c' :: r} := by
  have self := congrArg FMIClient.self (c.deliverFrame a)
  have at_ : ∀ {c' : FMIClient} f, c'.self = c.self → deref {m with slaves := l ++ c' :: r} c.self f =
      (f c').map fun c' => {m with slaves := l ++ c' :: r} := by
    intro c' f same
    rw [← same]
    exact derefAt rfl (replaceDistinct split same distinct)
  have on : ∀ {c' : FMIClient} f, c'.self = c.self → onSlave K {m with slaves := l ++ c' :: r} c.self f =
      (f c').bind fun c' => tick K {m with slaves := l ++ c' :: r} := by
    intro c' f same
    rw [← same]
    exact onSlaveAt rfl (replaceDistinct split same distinct)
  simp only [receive,derefAt split distinct,Except.map,bind,Except.bind]
  cases a with
  | getXml => exact on _ self
  | instantiate => exact on _ self
  | initializeSlave =>
    simp only [at_ _ self,Except.map]
    exact on _ self
  | terminate => exact on _ self
  | freeInstance => rfl
  | doStep => exact on _ self
  | getVersion => rfl
  | setReal => exact on _ self
  | getReal values =>
    simp only [at_ _ self,Except.map]
    exact on _ self
  | getFmuState => exact on _ self
  | setFmuState => exact on _ self
  | freeFmuState => exact on _ self
  | getDirectionalDerivative => exact on _ self

end Master
end FmiTcpMaster

import DistributedSystems.Protocol.Dict
import DistributedSystems.Protocol.Runs
import Mathlib.Algebra.Order.Ring.Rat

/-! # The service registry

Instances are objects that the lists of the services and the health checks refer to, by the
order of their creation. The history of the notifications names observer, instance and
status. Times are seconds, and a probe gets the status code of a URL or an exception.
-/
namespace DistributedSystems.ServiceDiscovery

inductive ServiceStatus
  | up | down | unknown
  deriving DecidableEq

structure ServiceInstance where
  serviceName : String
  instanceId : String
  host : String
  port : ℤ
  status : ServiceStatus
  healthCheckUrl : Option String
  lastHeartbeat : ℚ

namespace ServiceInstance

def isHeartbeatValid (inst : ServiceInstance) (now timeout : ℚ) : Bool := decide (now - inst.lastHeartbeat < timeout)

/-- A health check URL that is there and not empty. -/
def checkUrl (inst : ServiceInstance) : Option String := inst.healthCheckUrl.filter (· ≠ "")

/-- The HTTP health check; `urlopen` gives a status code, or `none` where it raises. -/
def probeHealth (inst : ServiceInstance) (urlopen : String → Option ℕ) : Bool :=
  match inst.checkUrl with
  | none => true
  | some url =>
    let url := if "http".toList.isPrefixOf url.toList then url
      else "http://" ++ inst.host ++ ":" ++ toString inst.port ++ url
    match urlopen url with
    | none => false
    | some status => decide (200 ≤ status ∧ status < 300)

/-- The status that a health check finds. -/
def checkedStatus (inst : ServiceInstance) (now : ℚ) (urlopen : String → Option ℕ) : ServiceStatus :=
  if inst.isHeartbeatValid now 60 = false then .down
  else if inst.checkUrl.isSome then if inst.probeHealth urlopen then .up else .down
  else .up

/-- The assignments of a heartbeat. -/
def beat (inst : ServiceInstance) (now : ℚ) : ServiceInstance :=
  let inst := { inst with lastHeartbeat := now }
  if inst.status = .unknown then { inst with status := .up }
  else if inst.status = .down ∧ inst.checkUrl = none then { inst with status := .up }
  else inst

end ServiceInstance

structure Stats where
  registrations : ℕ
  deregistrations : ℕ
  healthChecks : ℕ
  failedChecks : ℕ

structure ServiceRegistry where
  instances : List ServiceInstance
  services : Dict String (List ℕ)
  observers : List ℕ
  stats : Stats
  notified : List (ℕ × ℕ × ServiceStatus)

structure ValueError where
  message : String

/-- The characters that `str.strip` removes. -/
def isSpace (c : Char) : Bool :=
  let n := c.toNat
  decide ((9 ≤ n ∧ n ≤ 13) ∨ (28 ≤ n ∧ n ≤ 32) ∨ n = 0x85 ∨ n = 0xA0 ∨ n = 0x1680 ∨ (0x2000 ≤ n ∧ n ≤ 0x200A) ∨
    n = 0x2028 ∨ n = 0x2029 ∨ n = 0x202F ∨ n = 0x205F ∨ n = 0x3000)

/-- `not s or not s.strip()` -/
def isBlank (s : String) : Bool := s.toList.all isSpace

namespace ServiceRegistry

def init : ServiceRegistry := ⟨[],Dict.empty,[],⟨0,0,0,0⟩,[]⟩

def addObserver (s : ServiceRegistry) (callback : ℕ) : ServiceRegistry := { s with observers := s.observers ++ [callback] }

def notifyObservers (s : ServiceRegistry) (k : ℕ) (newStatus : ServiceStatus) : ServiceRegistry :=
  { s with notified := s.notified ++ s.observers.map fun callback => (callback,k,newStatus) }

/-- The instances of a service, in the order of their registration. -/
def registered (s : ServiceRegistry) (serviceName : String) : List ℕ := (s.services.get? serviceName).getD []

/-- `instanceId` is the uuid that is drawn. -/
def register (s : ServiceRegistry) (now : ℚ) (instanceId serviceName host : String) (port : ℤ)
    (healthCheckUrl : Option String) : Except ValueError (ServiceRegistry × String) :=
  if isBlank serviceName then .error ⟨"Service name is required"⟩
  else if isBlank host then .error ⟨"Host is required"⟩
  else if ¬(0 < port ∧ port < 65536) then .error ⟨"Port must be between 1 and 65535"⟩
  else .ok ({ s with
    instances := s.instances ++ [⟨serviceName,instanceId,host,port,.up,healthCheckUrl,now⟩]
    services := s.services.insert serviceName (s.registered serviceName ++ [s.instances.length])
    stats := { s.stats with registrations := s.stats.registrations + 1 } },instanceId)

/-- The instance has the id. -/
def hasId (s : ServiceRegistry) (instanceId : String) (k : ℕ) : Bool :=
  (s.instances[k]?).any fun inst => decide (inst.instanceId = instanceId)

def deregister (s : ServiceRegistry) (serviceName instanceId : String) : ServiceRegistry × Bool :=
  if (s.registered serviceName).any (s.hasId instanceId) then
    let rest := (s.registered serviceName).eraseP (s.hasId instanceId)
    ({ s with
      services := if rest = [] then s.services.erase serviceName else s.services.insert serviceName rest
      stats := { s.stats with deregistrations := s.stats.deregistrations + 1 } },true)
  else (s,false)

def heartbeat (s : ServiceRegistry) (now : ℚ) (serviceName instanceId : String) : ServiceRegistry × Bool :=
  match (s.registered serviceName).find? (s.hasId instanceId) with
  | none => (s,false)
  | some k => ({ s with instances := s.instances.modify k fun inst => inst.beat now },true)

/-- The check of any instance that was ever registered, also of one that no longer is. -/
def checkSingleInstance (s : ServiceRegistry) (now : ℚ) (urlopen : String → Option ℕ) (k : ℕ) : ServiceRegistry :=
  match s.instances[k]? with
  | none => s
  | some inst =>
    let newStatus := inst.checkedStatus now urlopen
    let s :=
      if newStatus ≠ inst.status then
        notifyObservers { s with instances := s.instances.modify k fun inst => { inst with status := newStatus } } k newStatus
      else s
    { s with
      stats := { s.stats with
        healthChecks := s.stats.healthChecks + 1
        failedChecks := s.stats.failedChecks + if newStatus = .down then 1 else 0 } }

inductive Action
  | addObserver (callback : ℕ)
  | register (now : ℚ) (instanceId serviceName host : String) (port : ℤ) (healthCheckUrl : Option String)
  | heartbeat (now : ℚ) (serviceName instanceId : String)
  | checkSingleInstance (now : ℚ) (urlopen : String → Option ℕ) (k : ℕ)
  | deregister (serviceName instanceId : String)

/-- A call that raises leaves the registry as it is. -/
def step (s : ServiceRegistry) : Action → ServiceRegistry
  | .addObserver callback => s.addObserver callback
  | .register now instanceId serviceName host port healthCheckUrl =>
    match s.register now instanceId serviceName host port healthCheckUrl with
    | .error _ => s
    | .ok (s',_) => s'
  | .heartbeat now serviceName instanceId => (s.heartbeat now serviceName instanceId).1
  | .checkSingleInstance now urlopen k => s.checkSingleInstance now urlopen k
  | .deregister serviceName instanceId => (s.deregister serviceName instanceId).1

/-- The last status of an instance that an observer was notified of, UP if there was none. -/
def lastNotified (s : ServiceRegistry) (callback k : ℕ) : ServiceStatus :=
  s.notified.foldl (fun last e => if e.1 = callback ∧ e.2.1 = k then e.2.2 else last) .up

/-- The observer knows the status of every registered instance. -/
def InSync (callback : ℕ) (s : ServiceRegistry) : Prop :=
  ∀ serviceName, ∀ k ∈ s.registered serviceName, (s.instances[k]?).map ServiceInstance.status = some (s.lastNotified callback k)

end ServiceRegistry

end DistributedSystems.ServiceDiscovery

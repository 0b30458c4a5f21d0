import RsProperties.Service.Properties

/-!
# The service as a whole

Any number of connections, the mailbox of the properties service and the store. A connection is at some
point of `handle_client`; each of its `await`s is a step of the system, so all interleavings of the
connections with each other and with the processing of the mailbox are runs. An `ask` puts the message
in the mailbox and suspends the connection; the service takes one pending message at a time, and its
reply resumes the connection that asked.

`processed` is the log of the messages the service has handled, oldest first.
-/

namespace RsProperties

open ByteMem

namespace Service

/-- Where a connection is: at an operation of its handler, or waiting for a reply. -/
inductive Task
  | running (handler : Handler (Except Error Unit))
  | waiting (next : Except String Bool → Handler (Except Error Unit))

/-- A connection: all the bytes its client sends before closing, those not yet read, and the status
words the client has received. -/
structure Connection where
  input : Bytes
  rest : Bytes
  task : Task
  received : List Bytes

/-- A handled message, with the connection that forwarded it and the reply. -/
structure Applied where
  conn : ℕ
  message : PropertyMessage
  reply : Bool

structure System where
  conns : ℕ → Option Connection
  mailbox : List (ℕ × PropertyMessage)
  store : SystemProperties
  processed : List Applied

/-- The service before the first connection. -/
def System.start (store : SystemProperties) : System where
  conns := fun _ => none
  mailbox := []
  store := store
  processed := []

def System.setConn (s : System) (c : ℕ) (conn : Connection) : System :=
  { s with conns := Function.update s.conns c (some conn) }

/-- The steps of the system. Reads and writes may fail at any time; the service may take any pending
message next. -/
inductive Step (order : ByteOrder) : System → System → Prop
  | accept {s : System} {c : ℕ} (input : Bytes) (hc : s.conns c = none) :
      Step order s (s.setConn c
        { input := input, rest := input, task := .running (handleClient order).run, received := [] })
  | read {s : System} {c n : ℕ} {conn : Connection}
      {next : Except IoError Bytes → Handler (Except Error Unit)} (hc : s.conns c = some conn)
      (ht : conn.task = .running (.perform (.readExact n) next)) (hn : n ≤ conn.rest.length) :
      Step order s (s.setConn c
        { conn with rest := conn.rest.drop n, task := .running (next (.ok (conn.rest.take n))) })
  | readFails {s : System} {c n : ℕ} {conn : Connection}
      {next : Except IoError Bytes → Handler (Except Error Unit)} (hc : s.conns c = some conn)
      (ht : conn.task = .running (.perform (.readExact n) next)) (e : IoError) :
      Step order s (s.setConn c { conn with task := .running (next (.error e)) })
  | write {s : System} {c : ℕ} {conn : Connection} {bytes : Bytes}
      {next : Except IoError Unit → Handler (Except Error Unit)} (hc : s.conns c = some conn)
      (ht : conn.task = .running (.perform (.writeAll bytes) next)) :
      Step order s (s.setConn c
        { conn with task := .running (next (.ok ())), received := conn.received ++ [bytes] })
  | writeFails {s : System} {c : ℕ} {conn : Connection} {bytes : Bytes}
      {next : Except IoError Unit → Handler (Except Error Unit)} (hc : s.conns c = some conn)
      (ht : conn.task = .running (.perform (.writeAll bytes) next)) (e : IoError) :
      Step order s (s.setConn c { conn with task := .running (next (.error e)) })
  | ask {s : System} {c : ℕ} {conn : Connection} {m : PropertyMessage}
      {next : Except String Bool → Handler (Except Error Unit)} (hc : s.conns c = some conn)
      (ht : conn.task = .running (.perform (.ask m) next)) :
      Step order s
        { s.setConn c { conn with task := .waiting next } with mailbox := s.mailbox ++ [(c, m)] }
  | process {s : System} {c : ℕ} {conn : Connection} {m : PropertyMessage}
      {before after : List (ℕ × PropertyMessage)}
      {next : Except String Bool → Handler (Except Error Unit)}
      (hm : s.mailbox = before ++ (c, m) :: after) (hc : s.conns c = some conn)
      (ht : conn.task = .waiting next) :
      Step order s
        { s.setConn c { conn with task := .running (next (.ok (handle m s.store).1)) } with
          mailbox := before ++ after
          store := (handle m s.store).2
          processed := s.processed ++ [⟨c, m, (handle m s.store).1⟩] }

/-- The states of the service started over a store. -/
def Reaches (order : ByteOrder) (store : SystemProperties) (s : System) : Prop :=
  Relation.ReflTransGen (Step order) (System.start store) s

/-- The store after handling the messages of a log, one after another. -/
def replay (store : SystemProperties) (log : List Applied) : SystemProperties :=
  log.foldl (fun sp a => (handle a.message sp).2) store

/-! ### Replays -/

section Replay

variable {store : SystemProperties} {log log' : List Applied}

theorem replay_append : replay store (log ++ log') = replay (replay store log) log' :=
  List.foldl_append

theorem replay_allSound (h : store.AllSound) (log : List Applied) :
    (replay store log).AllSound := by
  induction log generalizing store with
  | nil => exact h
  | cons a log ih => exact ih (handle_allSound h a.message)

theorem replay_ro (h : store.AllSound) (log : List Applied) {name : Bytes} {w : Str}
    (hro : startsWithRo name = true) (hw : store.value name = some w) :
    (replay store log).value name = some w := by
  induction log generalizing store with
  | nil => exact hw
  | cons a log ih => exact ih (handle_allSound h a.message) (handle_ro h a.message hro hw)

end Replay

end Service

end RsProperties

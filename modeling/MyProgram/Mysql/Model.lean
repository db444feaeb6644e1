import MyProgram.Lib.Act
import MyProgram.Lib.CString

/-! The client of the MySQL library (`MysqlClient.cpp`). What the library answers comes
with each call. -/
namespace MyProgram.Mysql
open Lib

/-- A `MYSQL*` that is not NULL. -/
abbrev Handle := Nat

inductive Timeout where
  | read | write
  deriving DecidableEq, Repr

/-- The calls of the library. Connecting records the answer. -/
inductive Effect where
  | init (answer : Option Handle)
  | options (h : Handle) (option : Timeout) (timeout : Nat)
  | realConnect (h : Handle) (ip user password database : Bytes) (port : Int) (answer : Bool)
  | setCharacterSet (h : Handle) (name : Bytes)
  | ping (h : Handle)
  | realQuery (h : Handle) (sql : Bytes)
  | affectedRows (h : Handle)
  | storeResult (h : Handle)
  | close (h : Option Handle)
  deriving DecidableEq, Repr

/-- No function of the client leaves defined behaviour by itself. -/
abbrev ClientM := Act Empty Effect

/-- A stored result: the names of the fields and the rows, in which NULL is `none`. -/
structure ResultSet where
  fields : List Bytes
  rows : List (List (Option Bytes))
  deriving DecidableEq, Repr

/-- What the library answers during one call of the client. -/
structure Answers where
  init : Option Handle
  connect : Bool
  ping : Int
  query : Int
  affectedRows : Nat
  result : Option ResultSet
  deriving DecidableEq, Repr

structure MysqlClient where
  m_ip : Bytes
  m_port : Int
  m_database : Bytes
  m_user : Bytes
  m_password : Bytes
  m_mysql_ctx : Option Handle
  deriving DecidableEq, Repr

namespace MysqlClient

/-- The constructor leaves `m_port` as it finds it. -/
def new (port : Int) : MysqlClient := ⟨[],port,[],[],[],none⟩

/-- The destructor. -/
def destroy (c : MysqlClient) : ClientM Unit :=
  match c.m_mysql_ctx with
  | none => pure ()
  | some h => Act.emit (.close (some h))

def initMysqlCtx (a : Answers) (c : MysqlClient) : ClientM MysqlClient := do
  Act.emit (.close c.m_mysql_ctx)
  Act.emit (.init a.init)
  match a.init with
  | none => pure { c with m_mysql_ctx := none }
  | some h => do
    Act.emit (.options h .read 20)
    Act.emit (.options h .write 20)
    Act.emit (.realConnect h c.m_ip c.m_user c.m_password c.m_database c.m_port a.connect)
    if a.connect then do
      Act.emit (.setCharacterSet h (ascii "utf8"))
      pure { c with m_mysql_ctx := some h }
    else pure { c with m_mysql_ctx := none }

def mysqlConnect (a : Answers) (c : MysqlClient) (ipPort user password database : Bytes) : ClientM (MysqlClient × Bool) :=
  match ipPort.idxOf? 58 with
  | none => pure (c,false)
  | some i => do
    let c ← initMysqlCtx a { c with
      m_ip := ipPort.take i
      m_port := atoi (ipPort.drop (i + 1))
      m_database := database
      m_user := user
      m_password := password }
    pure (c,c.m_mysql_ctx.isSome)

/-- `m_mysql_ctx == NULL || mysql_ping(m_mysql_ctx) != 0`. -/
def isDead (a : Answers) (c : MysqlClient) : ClientM Bool :=
  match c.m_mysql_ctx with
  | none => pure true
  | some h => do
    Act.emit (.ping h)
    pure (a.ping ≠ 0)

def mysqlReconnect (a : Answers) (c : MysqlClient) : ClientM (MysqlClient × Option Handle) := do
  let c ← if ← isDead a c then initMysqlCtx a c else pure c
  pure (c,c.m_mysql_ctx)

def mysqlExec (a : Answers) (c : MysqlClient) (sql : Bytes) : ClientM (MysqlClient × Bool) := do
  let (c,ctx) ← mysqlReconnect a c
  match ctx with
  | none => pure (c,false)
  | some h => do
    Act.emit (.realQuery h sql)
    pure (c,decide (a.query = 0))

def mysqlLastAffectedRows (a : Answers) (c : MysqlClient) : ClientM (MysqlClient × Nat) := do
  let (c,ctx) ← mysqlReconnect a c
  match ctx with
  | none => pure (c,0)
  | some h => do
    Act.emit (.affectedRows h)
    pure (c,a.affectedRows % 2^32)

/-- The result that `MysqlResult` stores. -/
def storeResult (a : Answers) (c : MysqlClient) : ClientM (Option ResultSet) :=
  match c.m_mysql_ctx with
  | none => pure none
  | some h => do
    Act.emit (.storeResult h)
    pure a.result

/-- `fetch_row` on a fresh result: as many columns as there are different field names. -/
def fetchRow (r : ResultSet) : Option (List Bytes) :=
  match r.rows with
  | [] => none
  | row :: _ =>
    let m_row := (row.take r.fields.dedup.length).map (·.getD [])
    if m_row.isEmpty then none else some m_row

/-- `get_string`: a later field replaces an earlier one of the same name. -/
def getString (r : ResultSet) (m_row : List Bytes) (key : Bytes) : Bytes :=
  match r.fields.reverse.idxOf? key with
  | none => []
  | some j => (m_row[r.fields.length - 1 - j]?).getD []

def insertId (r : Option ResultSet) : Int :=
  match r.bind fun r => (fetchRow r).map fun m_row => getString r m_row (ascii "id") with
  | none => -1
  | some s => atoi s

def getInsertId (a : Answers) (c : MysqlClient) : ClientM (MysqlClient × Int) := do
  let (c,_) ← mysqlExec a c (ascii "select  @@IDENTITY as id;")
  let r ← storeResult a c
  pure (c,insertId r)

end MysqlClient

/-- The public functions. -/
inductive Request where
  | connect (ipPort user password database : Bytes)
  | reconnect
  | exec (sql : Bytes)
  | lastAffectedRows
  | insertId
  deriving DecidableEq, Repr

structure Call where
  request : Request
  answers : Answers
  deriving DecidableEq, Repr

/-- One call, without the value it returns. -/
def clientStep (c : MysqlClient) (call : Call) : ClientM MysqlClient :=
  match call.request with
  | .connect ipPort user password database => do
    let (c,_) ← c.mysqlConnect call.answers ipPort user password database
    pure c
  | .reconnect => do
    let (c,_) ← c.mysqlReconnect call.answers
    pure c
  | .exec sql => do
    let (c,_) ← c.mysqlExec call.answers sql
    pure c
  | .lastAffectedRows => do
    let (c,_) ← c.mysqlLastAffectedRows call.answers
    pure c
  | .insertId => do
    let (c,_) ← c.getInsertId call.answers
    pure c

end MyProgram.Mysql

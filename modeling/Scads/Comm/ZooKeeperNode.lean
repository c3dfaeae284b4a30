import Scads.Comm.Messages
import Scads.Data.Scripts

namespace Scads.Comm

open Scads.Data

/-! # Nodes of ZooKeeper

The service handles the requests of the clients one at a time and on its newest state, so
a call of a client is a script of requests.  A read that was answered by an older state is
one that stands earlier among the requests of all clients.  That connections are lost and
requests tried again is left out.  Who made a node is on record.
-/

structure Znode (C : Type) where
  data : List Int8
  ephemeralOwner : Option C
  creator : C

/-- A node with the children that clients make below it. -/
structure ZooKeeperNode (C : Type) where
  present : Bool
  children : String → Option (Znode C)

inductive CreateMode where
  | persistent
  | ephemeral
deriving DecidableEq

/-- The codes of a `KeeperException`, and what the proxy throws itself. -/
inductive ZooKeeperFailure where
  | nodeExists (path : String)
  | noNode (path : String)
  | thrown (failure : Failure)
deriving DecidableEq

abbrev ZooKeeperScript (C α : Type) := Script ZooKeeperFailure (ZooKeeperNode C) α

namespace ZooKeeperNode

variable {C : Type}

def fullPath (path rpath : String) : String :=
  (if path = "/" then "/" else path ++ "/") ++ rpath

def withChild (node : ZooKeeperNode C) (name : String) (child : Option (Znode C)) : ZooKeeperNode C :=
  { node with children := Function.update node.children name child }

@[simp] theorem withChild_present (node : ZooKeeperNode C) (name : String) (child : Option (Znode C)) :
    (node.withChild name child).present = node.present := rfl

@[simp] theorem withChild_self (node : ZooKeeperNode C) (name : String) (child : Option (Znode C)) :
    (node.withChild name child).children name = child :=
  Function.update_self ..

@[simp] theorem withChild_other (node : ZooKeeperNode C) {name other : String} (child : Option (Znode C))
    (different : other ≠ name) : (node.withChild name child).children other = node.children other :=
  Function.update_of_ne different ..

/-- The session of a client ends, and its ephemeral nodes go. -/
def expire [DecidableEq C] (client : C) (node : ZooKeeperNode C) : ZooKeeperNode C :=
  { node with children := fun name => (node.children name).filter (·.ephemeralOwner ≠ some client) }

variable (client : C) (path : String)

/-- `conn.create` of a child. -/
def createChild (name : String) (data : List Int8) (mode : CreateMode) : ZooKeeperScript C Unit :=
  Script.perform fun node =>
    if node.present = false then (.error (.noNode (fullPath path name)), node)
    else if (node.children name).isSome then (.error (.nodeExists (fullPath path name)), node)
    else (.ok (), node.withChild name (some ⟨data, if mode = .ephemeral then some client else none, client⟩))

/-- Whether `childrenMap` has the name. -/
def get (name : String) : ZooKeeperScript C Bool :=
  Script.perform fun node =>
    if node.present = false then (.error (.noNode path), node) else (.ok (node.children name).isSome, node)

def apply (name : String) : ZooKeeperScript C Unit := do
  unless ← get path name do
    throw (.thrown (.runtime ("Zookeeper node doesn't exist: " ++ fullPath path name)))

def getOrCreate (name : String) : ZooKeeperScript C Unit := do
  unless ← get path name do
    tryCatch (createChild client path name [] .persistent) fun
      | .nodeExists _ => do
          unless ← get path name do
            throw (.thrown (.noSuchElement "None.get"))
      | failure => throw failure

/-- `getOrCreate` of the node itself. -/
def getOrCreateNode : ZooKeeperScript C Unit := do
  unless ← Script.perform fun node : ZooKeeperNode C => (.ok node.present, node) do
    tryCatch (Script.perform fun node : ZooKeeperNode C =>
      if node.present then (.error (.nodeExists path), node) else (.ok (), { node with present := true })) fun
      | .nodeExists _ => do
          unless ← Script.perform fun node : ZooKeeperNode C => (.ok node.present, node) do
            throw (.thrown (.noSuchElement "None.get"))
      | failure => throw failure

/-- `data_=` of a child. -/
def setData (name : String) (data : List Int8) : ZooKeeperScript C Unit :=
  Script.perform fun node =>
    match node.children name with
    | none => (.error (.noNode (fullPath path name)), node)
    | some child => (.ok (), node.withChild name (some { child with data }))

/-- `data` of a child. -/
def getData (name : String) : ZooKeeperScript C (List Int8) :=
  Script.perform fun node =>
    match node.children name with
    | none => (.error (.noNode (fullPath path name)), node)
    | some child => (.ok child.data, node)

/-- A node that is gone already is not deleted again. -/
def deleteChild (name : String) : ZooKeeperScript C Unit :=
  Script.perform fun node => (.ok (), node.withChild name none)

/-- The watch of the missing child fires when somebody creates it. -/
def awaitChild (name : String) : ZooKeeperScript C Unit := do
  unless ← Script.perform fun node : ZooKeeperNode C => (.ok (node.children name).isSome, node) do
    Script.await (fun node : ZooKeeperNode C => (node.children name).isSome) (.done ())
      (.failed (.thrown .timeout))
  apply path name

end ZooKeeperNode

end Scads.Comm

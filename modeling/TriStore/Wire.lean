import TriStore.Config
import TriStore.Json.Shape
import TriStore.Request
import TriStore.Response

/-!
# Wire forms

The JSON forms of what goes in and out of a store.
-/

namespace TriStore

open Json

def Target.codec : Codec Target := .names Target.all Target.name

def Status.codec : Codec Status := .names Status.all Status.name

def Request.shape : Shape Request where
  blank := ⟨"", none, none, none⟩
  fields :=
    [.mandatory "cmd" .text (·.cmd) fun cmd r => { r with cmd },
      .omitted "key" .text (·.key) fun key r => { r with key },
      .omitted "value" .text (·.value) fun value r => { r with value },
      .omitted "target" .text (·.target) fun target r => { r with target }]

def Request.codec : Codec Request := Request.shape.codec

def Record.shape : Shape Record where
  blank := ⟨"", ""⟩
  fields :=
    [.mandatory "key" .text (·.key) fun key r => { r with key },
      .mandatory "value" .text (·.value) fun value r => { r with value }]

def Record.codec : Codec Record := Record.shape.codec

def Usage.shape : Shape Usage where
  blank := ⟨0, 0, 0⟩
  fields :=
    [.mandatory "count" .natural (·.count) fun count u => { u with count },
      .mandatory "remaining" .natural (·.remaining) fun remaining u => { u with remaining },
      .mandatory "max" .natural (·.max) fun max u => { u with max }]

def Usage.codec : Codec Usage := Usage.shape.codec

def Stats.shape : Shape Stats where
  blank := ⟨⟨0, 0, 0⟩, ⟨0, 0, 0⟩, ⟨0, 0, 0⟩⟩
  fields :=
    [.mandatory "array" Usage.codec (·.array) fun array s => { s with array },
      .mandatory "hash" Usage.codec (·.hash) fun hash s => { s with hash },
      .mandatory "rbtree" Usage.codec (·.tree) fun tree s => { s with tree }]

def Stats.codec : Codec Stats := Stats.shape.codec

def Response.shape : Shape Response where
  blank := ⟨.ok, "", none, none⟩
  fields :=
    [.mandatory "status" Status.codec (·.status) fun status r => { r with status },
      .mandatory "message" .text (·.message) fun message r => { r with message },
      .omitted "value" .text (·.value) fun value r => { r with value },
      .omitted "data" Stats.codec (·.data) fun data r => { r with data }]

def Response.codec : Codec Response := Response.shape.codec

def Config.shape : Shape Config where
  blank := Config.standard
  fields :=
    [.defaulted "array_capacity" .natural (·.arrayCapacity)
        fun n c => { c with arrayCapacity := n },
      .defaulted "hash_capacity" .natural (·.hashCapacity)
        fun n c => { c with hashCapacity := n },
      .defaulted "rbtree_capacity" .natural (·.treeCapacity)
        fun n c => { c with treeCapacity := n },
      .defaulted "hash_buckets" (.optional .natural) (·.hashBuckets)
        fun n c => { c with hashBuckets := n }]

def Config.codec : Codec Config := Config.shape.codec

end TriStore

import TriStore.Proofs.Documents
import TriStore.Proofs.Json.Written

/-!
# Wire forms are read back

Each value that goes in or out of a store is read back from its JSON form. Strings may have any
characters and fields may be there or not; numbers have to fit 64 bits.
-/

namespace TriStore

open Json

structure Usage.Fits (u : Usage) : Prop where
  count : u.count < 1 <<< 64
  remaining : u.remaining < 1 <<< 64
  max : u.max < 1 <<< 64

structure Stats.Fits (s : Stats) : Prop where
  array : s.array.Fits
  hash : s.hash.Fits
  tree : s.tree.Fits

def Response.Fits (r : Response) : Prop := ∀ stats ∈ r.data, stats.Fits

structure Config.Fits (c : Config) : Prop where
  arrayCapacity : c.arrayCapacity < 1 <<< 64
  hashCapacity : c.hashCapacity < 1 <<< 64
  treeCapacity : c.treeCapacity < 1 <<< 64
  hashBuckets : ∀ n ∈ c.hashBuckets, n < 1 <<< 64

theorem Target.codec_returns (target : Target) : Target.codec.Returns target :=
  Target.codec_reads.returns (.alone (quoted_written target.name))

theorem Status.codec_returns (status : Status) : Status.codec.Returns status :=
  Status.codec_reads.returns (.alone (quoted_written status.name))

theorem Request.codec_returns (r : Request) : Request.codec.Returns r := by
  refine Request.shape_reads.codec.returns (Shape.written ?_ Request.shape_reads.names)
  apply List.Forall₂.cons (Field.writes_mandatory (quoted_written r.cmd))
  apply List.Forall₂.cons (Field.writes_omitted fun key _ => quoted_written key)
  apply List.Forall₂.cons (Field.writes_omitted fun value _ => quoted_written value)
  apply List.Forall₂.cons (Field.writes_omitted fun target _ => quoted_written target)
  exact .nil

theorem Record.codec_returns (r : Record) : Record.codec.Returns r := by
  refine Record.shape_reads.codec.returns (Shape.written ?_ Record.shape_reads.names)
  apply List.Forall₂.cons (Field.writes_mandatory (quoted_written r.key))
  apply List.Forall₂.cons (Field.writes_mandatory (quoted_written r.value))
  exact .nil

theorem Usage.written {u : Usage} (h : u.Fits) :
    StructureText Usage.forms u (Usage.codec.write u) := by
  refine Shape.written ?_ Usage.shape_reads.names
  apply List.Forall₂.cons (Field.writes_mandatory ⟨h.count, rfl⟩)
  apply List.Forall₂.cons (Field.writes_mandatory ⟨h.remaining, rfl⟩)
  apply List.Forall₂.cons (Field.writes_mandatory ⟨h.max, rfl⟩)
  exact .nil

theorem Usage.codec_returns {u : Usage} (h : u.Fits) : Usage.codec.Returns u :=
  Usage.shape_reads.codec.returns (Usage.written h)

theorem Stats.written {s : Stats} (h : s.Fits) :
    StructureText Stats.forms s (Stats.codec.write s) := by
  refine Shape.written ?_ Stats.shape_reads.names
  apply List.Forall₂.cons (Field.writes_mandatory (Usage.written h.array))
  apply List.Forall₂.cons (Field.writes_mandatory (Usage.written h.hash))
  apply List.Forall₂.cons (Field.writes_mandatory (Usage.written h.tree))
  exact .nil

theorem Stats.codec_returns {s : Stats} (h : s.Fits) : Stats.codec.Returns s :=
  Stats.shape_reads.codec.returns (Stats.written h)

theorem Response.codec_returns {r : Response} (h : r.Fits) : Response.codec.Returns r := by
  refine Response.shape_reads.codec.returns (Shape.written ?_ Response.shape_reads.names)
  apply List.Forall₂.cons (Field.writes_mandatory (.alone (quoted_written r.status.name)))
  apply List.Forall₂.cons (Field.writes_mandatory (quoted_written r.message))
  apply List.Forall₂.cons (Field.writes_omitted fun value _ => quoted_written value)
  apply List.Forall₂.cons (Field.writes_omitted fun stats hstats => Stats.written (h stats hstats))
  exact .nil

theorem Config.codec_returns {c : Config} (h : c.Fits) : Config.codec.Returns c := by
  -- unlike the other shapes this one writes null where no number of chains is set
  have hbuckets : OptionalText NaturalText c.hashBuckets (Codec.natural.optional.write c.hashBuckets) :=
    Codec.optional_written fun n hn => ⟨h.hashBuckets n hn, rfl⟩
  refine Config.shape_reads.codec.returns (Shape.written ?_ Config.shape_reads.names)
  apply List.Forall₂.cons (Field.writes_defaulted ⟨h.arrayCapacity, rfl⟩ _)
  apply List.Forall₂.cons (Field.writes_defaulted ⟨h.hashCapacity, rfl⟩ _)
  apply List.Forall₂.cons (Field.writes_defaulted ⟨h.treeCapacity, rfl⟩ _)
  apply List.Forall₂.cons (Field.writes_defaulted hbuckets _)
  exact .nil

/-- Every value is read back from the JSON that is written for it. -/
theorem decode_encode_wire :
    (∀ x : Request, Request.codec.decode (Request.codec.encode x) = .ok x) ∧
      (∀ x : Response, x.Fits → Response.codec.decode (Response.codec.encode x) = .ok x) ∧
      (∀ x : Status, Status.codec.decode (Status.codec.encode x) = .ok x) ∧
      (∀ x : Target, Target.codec.decode (Target.codec.encode x) = .ok x) ∧
      (∀ x : Record, Record.codec.decode (Record.codec.encode x) = .ok x) ∧
      (∀ x : Usage, x.Fits → Usage.codec.decode (Usage.codec.encode x) = .ok x) ∧
      (∀ x : Stats, x.Fits → Stats.codec.decode (Stats.codec.encode x) = .ok x) ∧
      ∀ x : Config, x.Fits → Config.codec.decode (Config.codec.encode x) = .ok x := by
  refine ⟨?_, ?_, ?_, ?_, ?_, ?_, ?_, ?_⟩
  · exact fun x => (Request.codec_returns x).decode_encode
  · exact fun x h => (Response.codec_returns h).decode_encode
  · exact fun x => (Status.codec_returns x).decode_encode
  · exact fun x => (Target.codec_returns x).decode_encode
  · exact fun x => (Record.codec_returns x).decode_encode
  · exact fun x h => (Usage.codec_returns h).decode_encode
  · exact fun x h => (Stats.codec_returns h).decode_encode
  · exact fun x h => (Config.codec_returns h).decode_encode

/-- A response with a quote, a control character and a character beyond U+FFFF, and with the largest
number, and a configuration with it. -/
theorem decode_encode_wire_of_largest :
    let largest := 0xffffffffffffffff
    let usage : Usage := ⟨largest, 0, largest⟩
    let stats : Stats := ⟨usage, usage, usage⟩
    let response : Response := ⟨.ok, "\"\\\x01", some "😀", some stats⟩
    let config : Config := ⟨largest, 1, 0, some largest⟩
    (usage.Fits ∧ stats.Fits ∧ response.Fits ∧ config.Fits) ∧
      Response.codec.decode (Response.codec.encode response) = .ok response ∧
      Usage.codec.decode (Usage.codec.encode usage) = .ok usage ∧
      Stats.codec.decode (Stats.codec.encode stats) = .ok stats ∧
      Config.codec.decode (Config.codec.encode config) = .ok config := by
  intro largest usage stats response config
  have husage : usage.Fits := ⟨by decide, by decide, by decide⟩
  have hstats : stats.Fits := ⟨husage, husage, husage⟩
  have hresponse : response.Fits := by
    intro data hdata
    obtain rfl := Option.some.inj hdata
    exact hstats
  have hconfig : config.Fits := by
    refine ⟨by decide, by decide, by decide, fun n hn => ?_⟩
    obtain rfl := Option.some.inj hn
    decide
  obtain ⟨-, hread, -, -, -, hreadUsage, hreadStats, hreadConfig⟩ := decode_encode_wire
  exact ⟨⟨husage, hstats, hresponse, hconfig⟩, hread response hresponse, hreadUsage usage husage,
    hreadStats stats hstats, hreadConfig config hconfig⟩

end TriStore

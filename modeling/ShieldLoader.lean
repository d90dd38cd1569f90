import ShieldLoader.Data.Word
import ShieldLoader.Data.Segment
import ShieldLoader.Lmb.Defs
import ShieldLoader.Lmb.Table
import ShieldLoader.Lmb.AddRegion
import ShieldLoader.Lmb.WellFormed
import ShieldLoader.Lmb.Own
import ShieldLoader.Lmb.Alloc
import ShieldLoader.Lmb.Free
import ShieldLoader.Lmb.Calls
import ShieldLoader.Lmb.Heap
import ShieldLoader.Lmb.Request
import ShieldLoader.Lmb.Release
import ShieldLoader.Lmb.Emptied
import ShieldLoader.Boot.Loose
import ShieldLoader.Lmb.Mmio
import ShieldLoader.Lmb.Named
import ShieldLoader.Lmb.Canonical
import ShieldLoader.Lmb.Undo
import ShieldLoader.Lmb.Coalesced
import ShieldLoader.Lmb.Registration
import ShieldLoader.Lmb.Queries
import ShieldLoader.Lmb.Search
import ShieldLoader.Boot.Main
import ShieldLoader.Data.Exec
import ShieldLoader.Fb.Strings
import ShieldLoader.Usbd.Defs
import ShieldLoader.Fb.Defs
import ShieldLoader.Fb.Texts
import ShieldLoader.Usbd.Rules
import ShieldLoader.Usbd.Steps
import ShieldLoader.Usbd.Completions
import ShieldLoader.Usbd.Setup
import ShieldLoader.Fb.Responses
import ShieldLoader.Fb.Packets
import ShieldLoader.Fb.Callbacks
import ShieldLoader.Fb.Rounds
import ShieldLoader.Fb.Resets
import ShieldLoader.Fb.Steps
import ShieldLoader.Fb.Runs
import ShieldLoader.Fb.Image
import ShieldLoader.Fb.Flash
import ShieldLoader.Fb.Downloads
import ShieldLoader.Fb.Statuses
import ShieldLoader.Fb.Receive
import ShieldLoader.Fb.Buffers
import ShieldLoader.Fb.Leftover
import ShieldLoader.Data.Numeral
import ShieldLoader.Fb.Numerals
import ShieldLoader.Boot.Cmdline
import ShieldLoader.Fb.Smccc
import ShieldLoader.Fb.Fields
import ShieldLoader.Fb.Grammar
import ShieldLoader.Fb.Replies
import ShieldLoader.Fb.Kept
import ShieldLoader.Fb.Completions
import ShieldLoader.Fb.Small
import ShieldLoader.Fb.Exchange
import ShieldLoader.Fb.InFlight
import ShieldLoader.Fb.Enumeration
import ShieldLoader.Fb.Events
import ShieldLoader.Fb.Peek
import ShieldLoader.Boot.Start
import ShieldLoader.Boot.Nodes
import ShieldLoader.Data.Fuel
import ShieldLoader.Data.Bytes
import ShieldLoader.Data.Forest
import ShieldLoader.Fdt.Defs
import ShieldLoader.Boot.Tree
import ShieldLoader.Fdt.Aliases
import ShieldLoader.Fdt.Depth
import ShieldLoader.Fdt.GetPath
import ShieldLoader.Printf.Buffer
import ShieldLoader.Printf.Decimal
import ShieldLoader.Printf.Number
import ShieldLoader.Printf.Output
import ShieldLoader.Printf.Formats

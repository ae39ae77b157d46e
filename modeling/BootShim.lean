import BootShim.Lib.Bytes
import BootShim.Lib.Checked
import BootShim.Lib.Machine
import BootShim.Lib.Sweep
import BootShim.Params
import BootShim.Boot.Header
import BootShim.Boot.Map
import BootShim.Boot.Derived
import BootShim.Acpi.Madt
import BootShim.Image.Build
import BootShim.Snp.Build
import BootShim.Pipeline.Apertures
import BootShim.Shim.Reset
import BootShim.Shim.SnpReset
import BootShim.Pipeline.Partition
import BootShim.Shim.PageTables
import BootShim.Shim.Mailbox
import BootShim.Pipeline.Processors
import BootShim.Boot.Exact
import BootShim.Pipeline.Window
import BootShim.Pipeline.Runtime
import BootShim.Pipeline.CommandLine
import BootShim.Shim.ReadBack
import BootShim.Shim.WakeRuns
import BootShim.Pipeline.Described
import BootShim.Pipeline.Loaded
import BootShim.Pipeline.HoleSets
import BootShim.Pipeline.Binding
import BootShim.Pipeline.Booted
import BootShim.Pipeline.Required
import BootShim.Pipeline.Conserved
import BootShim.Image.Mrtd
import BootShim.Snp.Chain
import BootShim.Acpi.Reader
import BootShim.Cli
import BootShim.Pipeline.Rebuild
import BootShim.Pipeline.Measured
import BootShim.Lib.Reach
import BootShim.Lib.X86.Core
import BootShim.Lib.X86.System
import BootShim.Lib.X86.Machine
import BootShim.Lib.X86.Rules
import BootShim.Shim.ResetCode
import BootShim.Shim.WalkCode
import BootShim.Shim.LongMode
import BootShim.Shim.ResetRuns
import BootShim.Shim.ResetBoot
import BootShim.Shim.ApRuns
import BootShim.Pipeline.Executed

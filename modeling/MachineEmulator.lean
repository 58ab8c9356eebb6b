import MachineEmulator.Base64
import MachineEmulator.NodeProof
import MachineEmulator.StepReplay
import MachineEmulator.Uarch.ResetLog
import MachineEmulator.Interpret.NoBreak
import MachineEmulator.Interpret.Privilege
import MachineEmulator.Interpret.Precise
import MachineEmulator.Interpret.Timer
import MachineEmulator.Interpret.Reservation
import MachineEmulator.Interpret.Instret
import MachineEmulator.Interpret.Expansion
import MachineEmulator.Interpret.CmioResponse
import MachineEmulator.Gdb.Continue
import MachineEmulator.HostWrites
import MachineEmulator.NextLeafProof
import MachineEmulator.TreeAgreement
import MachineEmulator.Uarch.Interpret
import MachineEmulator.Interpret.InterruptLine
import MachineEmulator.HttpsProxy.DnsTransport
import MachineEmulator.JsonRpc
import MachineEmulator.Interpret.DeviceMemory

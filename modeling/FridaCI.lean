import FridaCI.Agents
import FridaCI.Buildbot
import FridaCI.Results
import FridaCI.Knowledge
import FridaCI.Opening
import FridaCI.Commands
import FridaCI.Factories
import FridaCI.Builders
import FridaCI.Push
import FridaCI.Targets
import FridaCI.History
import FridaCI.Schedulers
import FridaCI.Release
import FridaCI.Requests
import FridaCI.Bash
import FridaCI.Console
import FridaCI.Framing
import FridaCI.Errexit
import FridaCI.RunSh
import FridaCI.Transcript
import FridaCI.Segments
import FridaCI.Startup.Ram
import FridaCI.Startup.Alloc
import FridaCI.Startup.Strings
import FridaCI.Startup.Pieces
import FridaCI.Startup.AddressSpace
import FridaCI.Startup.Sysram
import FridaCI.Startup.Board
import FridaCI.Ipl.Memory
import FridaCI.Ipl.Image
import FridaCI.Ipl.Scan
import FridaCI.Ipl.Download
import FridaCI.Ipl.Boot
import FridaCI.Ipl.FatFs
import FridaCI.Ipl.Directory
import FridaCI.Devi.Buffer
import FridaCI.Devi.Events
